import ContractLinker.CommandLine.Options

/-
  A reader of arguments, with which the program is run where
  no library for them is at hand. It keeps to the plain forms:
  an option is written `--name value` or `--name=value`; the
  two flags with a letter may be written `-h` and `-v`; behind
  `--` every argument is positional, and `-` always is. Of
  stranger forms it refuses some which such a library takes,
  signs in front of a number among them. Runs are defined for
  any reader, and what is true of them does not rest on this
  one.

  Key definitions include:
    * `CommandLine.Name`
    * `CommandLine.Arity`
    * `CommandLine.SyntaxError`
    * `CommandLine.Mention`
    * `CommandLine.Sorting.step`
    * `CommandLine.sort`
    * `CommandLine.plainReader`
    * `CommandLine.Options.parse`
-/

------------------------------------------------------------
-- Options
------------------------------------------------------------

namespace ContractLinker

namespace CommandLine

/- The options. Positional arguments count as input files. -/
inductive Name where
  | help
  | version
  | pipeline
  | libraries
  | solcVersion
  | debugOutputDir
  | prettyJson
  | jsonIndent
  | inputFile
deriving DecidableEq, Repr

/-
  How often an option may be given, and with how many values:
  a flag once without a value, a single one once with one, a
  repeated one with one each time, and a list with at least
  one each time.
-/
inductive Arity where
  | flag
  | single
  | repeated
  | list
deriving DecidableEq, Repr

namespace Name

/- All options. -/
def all : List Name :=
  [ .help, .version, .pipeline, .libraries, .solcVersion,
    .debugOutputDir, .prettyJson, .jsonIndent, .inputFile ]

/- The word which is written behind two dashes. -/
def word : Name → Text
  | .help => ascii "help"
  | .version => ascii "version"
  | .pipeline => ascii "pipeline"
  | .libraries => ascii "libraries"
  | .solcVersion => ascii "solc-version"
  | .debugOutputDir => ascii "debug-output-dir"
  | .prettyJson => ascii "pretty-json"
  | .jsonIndent => ascii "json-indent"
  | .inputFile => ascii "input-file"

/- The number of values. -/
def arity : Name → Arity
  | .help | .version | .prettyJson => .flag
  | .pipeline | .solcVersion | .debugOutputDir | .jsonIndent =>
      .single
  | .inputFile => .repeated
  | .libraries => .list

/- The option of a word. -/
def ofWord? (s : Text) : Option Name :=
  all.find? fun name => name.word = s

/- The flag of a letter behind one dash. -/
def ofLetter? (s : Text) : Option Name :=
  if s = ascii "h" then some .help
  else if s = ascii "v" then some .version
  else none

end Name

------------------------------------------------------------
-- Shapes Of Arguments
------------------------------------------------------------

/- The byte in front of options. -/
def dash : UInt8 :=
  '-'.toUInt8

/- What an argument looks like, before its option is known. -/
inductive Shape where
  | terminator
  | long (word : Text) (value : Option Text)
  | short (letters : Text)
  | positional
deriving DecidableEq, Repr

/- The shape of an argument. -/
def shape (argument : Text) : Shape :=
  match argument with
  | a :: b :: rest =>
      if a != dash then
        .positional
      else if b != dash then
        .short (b :: rest)
      else if rest.isEmpty then
        .terminator
      else
        match Text.cutFirst '='.toUInt8 rest with
        | some (word, value) => .long word (some value)
        | none => .long rest none
  | _ => .positional

/-
  Whether an argument can be the value of the option in front
  of it: the terminator and known options cannot, unknown
  options can.
-/
def isValue (argument : Text) : Bool :=
  match shape argument with
  | .terminator => false
  | .long word _ => (Name.ofWord? word).isNone
  | .short letters => (Name.ofLetter? letters).isNone
  | .positional => true

------------------------------------------------------------
-- Sorting
------------------------------------------------------------

/- Why arguments cannot be sorted. -/
inductive SyntaxError where
  | unknownOption (argument : Text)
  | missingValue (name : Name)
  | emptyValue (name : Name)
  | needlessValue (name : Name)
  | repeatedOption (name : Name)
  | invalidNumber (name : Name) (value : Text)
deriving DecidableEq, Repr

/- What a user is told. -/
def SyntaxError.message : SyntaxError → Text
  | .unknownOption argument =>
      ascii "unrecognised option '" ++ argument ++ ascii "'"
  | .missingValue name =>
      ascii "the required argument for option '--" ++ name.word ++
        ascii "' is missing"
  | .emptyValue name =>
      ascii "the argument for option '--" ++ name.word ++
        ascii "' should follow immediately after the equal sign"
  | .needlessValue name =>
      ascii "option '--" ++ name.word ++
        ascii "' does not take any arguments"
  | .repeatedOption name =>
      ascii "option '--" ++ name.word ++
        ascii "' cannot be specified more than once"
  | .invalidNumber name value =>
      ascii "the argument ('" ++ value ++ ascii "') for option '--" ++
        name.word ++ ascii "' is invalid"

/- An option as it was given, with its value if it has one. -/
structure Mention where
  name : Name
  value : Option Text
deriving DecidableEq, Repr

/- What the next argument may be. -/
inductive Sorting where
  | anything
  | valueOf (name : Name)
  | moreOf (name : Name)
  | positionals
deriving DecidableEq, Repr

namespace Sorting

/- What may follow the value of an option. -/
def afterValue (name : Name) : Sorting :=
  if name.arity = .list then .moreOf name else .anything

/- A positional argument. -/
def positional (argument : Text) : Mention where
  name := .inputFile
  value := some argument

/- An option with the value behind its equals sign, if any. -/
def option (name : Name) (value : Option Text) :
    Except SyntaxError (List Mention × Sorting) :=
  if name.arity = .flag then
    match value with
    | none => .ok ([⟨name, none⟩], .anything)
    | some _ => .error (.needlessValue name)
  else
    match value with
    | none => .ok ([], .valueOf name)
    | some [] => .error (.emptyValue name)
    | some v => .ok ([⟨name, some v⟩], afterValue name)

/- An argument which is no value. -/
def anythingStep (argument : Text) :
    Except SyntaxError (List Mention × Sorting) :=
  match shape argument with
  | .terminator => .ok ([], .positionals)
  | .long word value =>
      match Name.ofWord? word with
      | some name => option name value
      | none => .error (.unknownOption argument)
  | .short letters =>
      match Name.ofLetter? letters with
      | some name => option name none
      | none => .error (.unknownOption argument)
  | .positional => .ok ([positional argument], .anything)

/- Sort one argument. -/
def step (state : Sorting) (argument : Text) :
    Except SyntaxError (List Mention × Sorting) :=
  match state with
  | .anything => anythingStep argument
  | .valueOf name =>
      if isValue argument then
        .ok ([⟨name, some argument⟩], afterValue name)
      else
        .error (.missingValue name)
  | .moreOf name =>
      if shape argument = .positional then
        .ok ([⟨name, some argument⟩], .moreOf name)
      else
        anythingStep argument
  | .positionals => .ok ([positional argument], .positionals)

/- Sort arguments. -/
def run : Sorting → List Text → Except SyntaxError (List Mention)
  | .valueOf name, [] => .error (.missingValue name)
  | _, [] => .ok []
  | state, argument :: rest =>
      match step state argument with
      | .error e => .error e
      | .ok (mentions, state) =>
          (run state rest).map fun others => mentions ++ others

end Sorting

/- Whether an option may be given only once. -/
def isSingular (name : Name) : Bool :=
  name.arity = .flag || name.arity = .single

/- The first option which is given again but may not be. -/
def repeated? : List Mention → Option Name
  | [] => none
  | m :: rest =>
      if isSingular m.name && rest.any (·.name = m.name) then
        some m.name
      else
        repeated? rest

/- Sort the arguments of a command line. -/
def sort (arguments : List Text) :
    Except SyntaxError (List Mention) := do
  let mentions ← Sorting.run .anything arguments
  match repeated? mentions with
  | some name => .error (.repeatedOption name)
  | none => return mentions

------------------------------------------------------------
-- Reading
------------------------------------------------------------

/- Whether an option is given. -/
def isGiven (name : Name) (mentions : List Mention) : Bool :=
  mentions.any (·.name = name)

/- All values of an option, in order. -/
def values (name : Name) (mentions : List Mention) : List Text :=
  mentions.filterMap fun m =>
    if m.name = name then m.value else none

/- The value of an option which is given at most once. -/
def value? (name : Name) (mentions : List Mention) :
    Option Text :=
  (values name mentions).head?

/- A decimal number which fits 32 bits. -/
def number? (s : Text) : Option UInt32 :=
  if !s.isEmpty && s.all Text.isDigit &&
      Decimal.value s < UInt32.size then
    some (UInt32.ofNat (Decimal.value s))
  else
    none

/- The indentation which is asked for. -/
def indent (mentions : List Mention) :
    Except SyntaxError (Option UInt32) :=
  match value? .jsonIndent mentions with
  | none => .ok none
  | some s =>
      match number? s with
      | some n => .ok (some n)
      | none => .error (.invalidNumber .jsonIndent s)

/- What sorted arguments give. -/
def givenBy (mentions : List Mention) :
    Except SyntaxError Given := do
  let indent ← indent mentions
  return {
    help := isGiven .help mentions
    version := isGiven .version mentions
    pipeline := value? .pipeline mentions
    libraries := values .libraries mentions
    solcVersion := value? .solcVersion mentions
    debugOutputDir := value? .debugOutputDir mentions
    prettyJson := isGiven .prettyJson mentions
    jsonIndent := indent
    inputFiles := values .inputFile mentions
  }

/- The reader with which the program is run. -/
def plainReader : ArgumentReader := fun arguments =>
  (sort arguments >>= givenBy).mapError SyntaxError.message

/- The options of some arguments, as that reader reads them. -/
def Options.parse (arguments : List Text) :
    Except OptionError Options :=
  parseBy plainReader arguments

end CommandLine

end ContractLinker
