import ContractLinker.Text.Basic

/-
  Finite maps and sets of texts. Both are lists in the
  order of their texts, without repetitions, so that going
  through one meets the texts in byte order and two maps
  with the same entries are the same list. The operations
  keep this order, which is `Dictionary.Ordered` for maps
  and `TextSet.Ordered` for sets.

  Key definitions include:
    * `Dictionary`
    * `Dictionary.Ordered`
    * `Dictionary.get?`
    * `Dictionary.insert`
    * `Dictionary.insertNew`
    * `Dictionary.advance`
    * `TextSet`
    * `TextSet.Ordered`
    * `TextSet.insert`
    * `TextSet.union`
-/

------------------------------------------------------------
-- Dictionaries
------------------------------------------------------------

namespace ContractLinker

/- A finite map from texts, as its entries in key order. -/
abbrev Dictionary (α : Type) :=
  List (Text × α)

namespace Dictionary

variable {α β σ ε : Type}

/- The keys increase strictly. -/
def Ordered (d : Dictionary α) : Prop :=
  d.Pairwise fun x y => x.1 < y.1

/- The value under a key. -/
def get? (key : Text) : Dictionary α → Option α
  | [] => none
  | (k, a) :: rest => if k = key then some a else get? key rest

/- Whether a key has a value. -/
def contains (key : Text) (d : Dictionary α) : Bool :=
  (d.get? key).isSome

/- Put a value under a key, in the place of an earlier one. -/
def insert (key : Text) (value : α) : Dictionary α → Dictionary α
  | [] => [(key, value)]
  | (k, a) :: rest =>
      if key = k then
        (key, value) :: rest
      else if key < k then
        (key, value) :: (k, a) :: rest
      else
        (k, a) :: insert key value rest

/- Put a value under a key unless the key has one already. -/
def insertNew (key : Text) (value : α) (d : Dictionary α) :
    Dictionary α :=
  if d.contains key then d else d.insert key value

/- Entries in any order, the last one of a key deciding. -/
def ofList (entries : List (Text × α)) : Dictionary α :=
  entries.foldl (fun d (k, a) => d.insert k a) []

/- Change every value, with its key at hand. -/
def mapValues (f : Text → α → β) (d : Dictionary α) :
    Dictionary β :=
  d.map fun (k, a) => (k, f k a)

/-
  Change the values one by one in key order, carrying a
  state along, until a step reports an error. A step which
  fails still changes its own value; those behind it stay.
-/
def advance
    (step : Text → α → σ → α × σ × Option ε) :
    Dictionary α → σ → Dictionary α × σ × Option ε
  | [], s => ([], s, none)
  | (k, a) :: rest, s =>
      match step k a s with
      | (a', s', some e) => ((k, a') :: rest, s', some e)
      | (a', s', none) =>
          match advance step rest s' with
          | (rest', s'', stop) => ((k, a') :: rest', s'', stop)

end Dictionary

------------------------------------------------------------
-- Sets Of Texts
------------------------------------------------------------

/- A finite set of texts, in order. -/
abbrev TextSet :=
  List Text

namespace TextSet

/- The members increase strictly. -/
def Ordered (xs : TextSet) : Prop :=
  List.Pairwise (· < ·) xs

/- Add a text to a set. -/
def insert (x : Text) : TextSet → TextSet
  | [] => [x]
  | y :: rest =>
      if x = y then
        y :: rest
      else if x < y then
        x :: y :: rest
      else
        y :: insert x rest

/- Add all texts of a list to a set. -/
def union (xs : TextSet) (ys : List Text) : TextSet :=
  ys.foldl (fun set y => insert y set) xs

end TextSet

end ContractLinker
