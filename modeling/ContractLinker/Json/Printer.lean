import ContractLinker.Json.Basic
import ContractLinker.Text.Hex
import ContractLinker.Text.Utf8

/-
  JSON documents as text. The compact form has no white
  space. The pretty form gives every member and element a
  line of its own and starts a container with content on a
  new line, also behind the colon of a member, where the
  blank after the colon is dropped. Both forms are ASCII:
  code points above 127 are written as escapes.

  Key definitions include:
    * `Json.quote`
    * `Json.compact`
    * `Json.Format`
    * `Json.layout`
    * `Json.tidy`
    * `Json.render`
    * `Json.pretty`
-/

------------------------------------------------------------
-- Strings
------------------------------------------------------------

namespace ContractLinker

namespace Json

/- An escape of four hexadecimal digits. -/
def unicodeEscape (n : Nat) : Text :=
  Text.backslash :: 'u'.toUInt8 ::
    Hex.encode .lower [(n / 256).toUInt8, n.toUInt8]

/-
  A code point inside a string. Code points above 0xffff are
  written as the two surrogates of UTF-16.
-/
def escape (n : Nat) : Text :=
  if n = 0x22 then [Text.backslash, Text.doubleQuote]
  else if n = 0x5c then [Text.backslash, Text.backslash]
  else if n = 0x08 then ascii "\\b"
  else if n = 0x0c then ascii "\\f"
  else if n = 0x0a then ascii "\\n"
  else if n = 0x0d then ascii "\\r"
  else if n = 0x09 then ascii "\\t"
  else if n < 0x20 then unicodeEscape n
  else if n < 0x80 then [n.toUInt8]
  else if n < 0x10000 then unicodeEscape n
  else
    unicodeEscape (0xd800 + (n - 0x10000) / 0x400 % 0x400) ++
      unicodeEscape (0xdc00 + (n - 0x10000) % 0x400)

/- A text as a string literal. -/
def quote (s : Text) : Text :=
  Text.doubleQuote ::
    ((Utf8.codePoints s).flatMap escape ++ [Text.doubleQuote])

------------------------------------------------------------
-- Compact Form
------------------------------------------------------------

/- The text of a value other than an array or an object. -/
def scalar : Json → Text
  | .null => ascii "null"
  | .bool true => ascii "true"
  | .bool false => ascii "false"
  | .int n => Decimal.ofInt n
  | .double x => x.render
  | .str s => quote s
  | .arr _ | .obj _ => []

mutual

/- A value without any white space. -/
def compact : Json → Text
  | .arr [] => ascii "[]"
  | .arr (j :: js) =>
      '['.toUInt8 :: (compact j ++ compactItems js)
  | .obj [] => ascii "\x7b\x7d"
  | .obj ((k, j) :: ms) =>
      '{'.toUInt8 ::
        (quote k ++ ':'.toUInt8 :: (compact j ++ compactMembers ms))
  | .null => scalar .null
  | .bool b => scalar (.bool b)
  | .int n => scalar (.int n)
  | .double x => scalar (.double x)
  | .str s => scalar (.str s)
termination_by structural j => j

/- The elements behind the first one, and the closing bracket. -/
def compactItems : List Json → Text
  | [] => [']'.toUInt8]
  | j :: js => ','.toUInt8 :: (compact j ++ compactItems js)
termination_by structural js => js

/- The members behind the first one, and the closing brace. -/
def compactMembers : List (Text × Json) → Text
  | [] => ['}'.toUInt8]
  | (k, j) :: ms =>
      ','.toUInt8 ::
        (quote k ++ ':'.toUInt8 :: (compact j ++ compactMembers ms))
termination_by structural ms => ms

end

------------------------------------------------------------
-- Pretty Form
------------------------------------------------------------

/-
  A line break and the blanks in front of a line at a level.
  Without indentation there are no lines.
-/
def lineBreak (indent level : Nat) : Text :=
  if indent = 0 then
    []
  else
    Text.newline :: List.replicate (indent * level) ' '.toUInt8

/- What stands between the colon's blank and a member's value. -/
def beforeValue (indent level : Nat) : Json → Text
  | .arr (_ :: _) => lineBreak indent level
  | .obj (_ :: _) => lineBreak indent level
  | _ => []

mutual

/- A value whose first line already stands at its level. -/
def layout (indent level : Nat) : Json → Text
  | .arr [] => ascii "[]"
  | .arr (j :: js) =>
      '['.toUInt8 ::
        (lineBreak indent (level + 1) ++
          layout indent (level + 1) j ++
          layoutItems indent level js)
  | .obj [] => ascii "\x7b\x7d"
  | .obj ((k, j) :: ms) =>
      '{'.toUInt8 ::
        (lineBreak indent (level + 1) ++ quote k ++ ascii ": " ++
          beforeValue indent (level + 1) j ++
          layout indent (level + 1) j ++
          layoutMembers indent level ms)
  | .null => scalar .null
  | .bool b => scalar (.bool b)
  | .int n => scalar (.int n)
  | .double x => scalar (.double x)
  | .str s => scalar (.str s)
termination_by structural j => j

/- The elements behind the first one, and the closing bracket. -/
def layoutItems (indent level : Nat) : List Json → Text
  | [] => lineBreak indent level ++ [']'.toUInt8]
  | j :: js =>
      ','.toUInt8 ::
        (lineBreak indent (level + 1) ++
          layout indent (level + 1) j ++
          layoutItems indent level js)
termination_by structural js => js

/- The members behind the first one, and the closing brace. -/
def layoutMembers (indent level : Nat) :
    List (Text × Json) → Text
  | [] => lineBreak indent level ++ ['}'.toUInt8]
  | (k, j) :: ms =>
      ','.toUInt8 ::
        (lineBreak indent (level + 1) ++ quote k ++ ascii ": " ++
          beforeValue indent (level + 1) j ++
          layout indent (level + 1) j ++
          layoutMembers indent level ms)
termination_by structural ms => ms

end

/- Drop the one blank in front of each line break. -/
def tidy : Text → Text
  | [] => []
  | b :: s =>
      if b = ' '.toUInt8 && s.head? = some Text.newline then
        tidy s
      else
        b :: tidy s

------------------------------------------------------------
-- Formats
------------------------------------------------------------

/- How a document is written. -/
inductive Format where
  | compact
  | pretty (indent : Nat)
deriving DecidableEq, Repr

/- A document in a format. -/
def render (j : Json) : Format → Text
  | .compact => j.compact
  | .pretty indent => tidy (j.layout indent 0)

/- A document in the pretty form with the usual indentation. -/
def pretty (j : Json) : Text :=
  j.render (.pretty 2)

end Json

end ContractLinker
