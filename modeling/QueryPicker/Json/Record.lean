import QueryPicker.Json.Reader

/-!
# Records in JSON text

A record is written as an object with a member for each of its parts, or as an array of its parts in
order. Members that are no parts are skimmed only; a part that is given twice, and an array that is
too long, are refused. The parts are handed on as text, so that each is read as what it has to be.
-/

namespace QueryPicker.Json.Record

/-- The parts that were given, each with its text. -/
abbrev Parts := List (String × List Char)

/-- The text of a value at the front of a text. -/
def valueText (cs : List Char) : Except JsonError (List Char × List Char) := do
  let (_, rest) ← Reader.value true cs.length cs
  return (cs.take (cs.length - rest.length), rest)

/-- What was read, if nothing but blanks follows. -/
def whole? {α : Type} : Except JsonError (α × List Char) → Option α
  | .ok (a, rest) => if (Reader.skipSpace rest).isEmpty then some a else none
  | .error _ => none

def distinct (names : List String) : Bool := decide names.Nodup

/-- Splits the text of a record with the named parts. -/
def parts? (names : List String) (text : List Char) : Option Parts :=
  match Reader.skipSpace text with
  | [] => none
  | c :: cs =>
    if c = '[' then do
      let items ← whole? (Reader.itemsTail valueText (cs.length + 1) true cs)
      if items.length ≤ names.length then some (names.zip items) else none
    else if c = '\x7b' then do
      let members ← whole? (Reader.membersTail false valueText (cs.length + 1) true cs)
      let known := members.filter fun m => names.contains m.1
      if distinct (known.map (·.1)) then some known else none
    else none

/-- The texts of the items of a list. -/
def items? (text : List Char) : Option (List (List Char)) :=
  match Reader.skipSpace text with
  | '[' :: cs => whole? (Reader.itemsTail valueText (cs.length + 1) true cs)
  | _ => none

/-- A part that may be any value; the number is how deep it may nest. -/
def value? (depth : Nat) (text : List Char) : Option Json :=
  (whole? (Reader.value false depth text)).map merge

def isNull (text : List Char) : Bool :=
  match value? 0 text with
  | some .null => true
  | _ => false

def required? {α : Type} (read : List Char → Option α) (parts : Parts) (name : String) :
    Option α :=
  (Entries.get? parts name).bind read

/-- A part that is missing or null is absent. -/
def optional? {α : Type} (read : List Char → Option α) (parts : Parts) (name : String) :
    Option (Option α) :=
  match Entries.get? parts name with
  | none => some none
  | some text => if isNull text then some none else (read text).map some

def text? (text : List Char) : Option String := (value? 0 text).bind Json.string?

def list? {α : Type} (read : List Char → Option α) (text : List Char) : Option (List α) :=
  (items? text).bind (·.mapM read)

end QueryPicker.Json.Record
