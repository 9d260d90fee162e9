import QueryPicker.Json.Writer
import QueryPicker.Order.Unused
import QueryPicker.Random.Draw
import QueryPicker.Sample.Query
import QueryPicker.Text.Lowercase

/-!
# Sample variables

Values for the fields of an input type. First it is laid out what stands where, by type and, for the
basic types, by what the name of the field suggests; then the numbers in it are drawn, from left to
right. An input type is not entered again inside itself, so every layout is finite: what would be an
object there is left out of the top level and null further down. If a draw does not end, there are
no variables.
-/

namespace QueryPicker

inductive SampleValue where
  | null
  | text (value : String)
  | truth
  /-- A whole number in a range without its upper end. -/
  | whole (lo hi : Nat)
  /-- A whole number, written as text. -/
  | numeral (lo hi : Nat)
  /-- A number with two decimal places. -/
  | amount (lo hi : Nat)
  | list (item : SampleValue)
  | object (type : String) (members : List (String × SampleValue))
  deriving Inhabited

namespace SampleValue

def date : String := "2024-01-01"

def dateTime : String := "2024-01-01T00:00:00Z"

/-- The first entry whose word occurs in a name. -/
def suggested? {α : Type} (table : List (String × α)) (name : String) : Option α :=
  (table.find? fun (word, _) => Text.containsText name word).map (·.2)

def amountRange (name : String) : Nat × Nat :=
  (suggested? [("price", (10, 1000)), ("cost", (10, 1000))] name).getD (0, 100)

def wholeRange (name : String) : Nat × Nat :=
  (suggested? [("id", (1, 1000)), ("age", (18, 80)), ("count", (1, 100)),
    ("year", (2000, 2024))] name).getD (1, 100)

/-- Words that occur in a name; of several the first in the table counts. -/
def textsBeforeNames : List (String × String) :=
  [("date", date), ("time", dateTime), ("email", "user@example.com"),
    ("username", "example_user"), ("login", "example_user")]

def textsAfterNames : List (String × String) :=
  [("name", "Jane Doe"), ("phone", "+1-555-0100"), ("mobile", "+1-555-0100"),
    ("address", "1 Example Street"), ("city", "Springfield"), ("country", "United States"),
    ("url", "https://example.com"), ("website", "https://example.com"),
    ("title", "Example title"), ("description", "An example description."),
    ("content", "An example description."), ("code", "EX-001")]

/-- First and last names may also be the whole of a name. -/
def personText? (name : String) : Option String :=
  if Text.containsText name "firstname" || name == "first" then some "Jane"
  else if Text.containsText name "lastname" || name == "last" then some "Doe"
  else none

def textFor (name : String) : String :=
  (suggested? textsBeforeNames name <|> personText? name <|> suggested? textsAfterNames name).getD
    "example"

/-- The value of a basic type; the name of the field is read in lower case. -/
def ofScalar (scalar field : String) : SampleValue :=
  let name := Text.lowercase field
  match scalar with
  | "Boolean" => .truth
  | "Float" => .amount (amountRange name).1 (amountRange name).2
  | "ID" => .numeral 1 1000
  | "Int" => .whole (wholeRange name).1 (wholeRange name).2
  | "String" => .text (textFor name)
  | "Date" => .text date
  | "DateTime" => .text dateTime
  | "Timestamp" => .text dateTime
  | _ => .text "mock_value"

end SampleValue

namespace Schema

mutual

/-- The value of a field or an item, if there is one. The chain holds the input types around it. -/
def sampleValue? (s : Schema) (chain : List String) (field : String) (type : TypeRef) :
    Option SampleValue :=
  match type with
  | .list inner => some (.list ((s.sampleValue? chain field inner).getD .null))
  | .nonNull inner => s.sampleValue? chain field inner
  | .named .enumeration name => some (.text ((s.firstEnumValue? name).getD "UNKNOWN"))
  | .named .scalar name => some (.ofScalar name field)
  | .named .inputObject name =>
    if hn : name ∈ chain then none
    else
      match ht : s.typeNamed? name with
      | none => none
      | some t =>
        if t.inputFields.isEmpty then none
        else
          have : countUnused (s.types.map (·.1)) (name :: chain) <
              countUnused (s.types.map (·.1)) chain :=
            countUnused_cons_lt (List.mem_map.mpr ⟨_, mem_types_of_typeNamed? ht, rfl⟩) hn
          some (.object name (s.sampleMembers (name :: chain) t.inputFields))
  | .named _ _ => none
termination_by (countUnused (s.types.map (·.1)) chain, sizeOf type)

/-- A member for every field. -/
def sampleMembers (s : Schema) (chain : List String) (fields : List InputValue) :
    List (String × SampleValue) :=
  match fields with
  | [] => []
  | f :: fields =>
    have : sizeOf f.type < sizeOf (f :: fields) := by
      cases f
      simp only [List.cons.sizeOf_spec, InputValue.mk.sizeOf_spec]
      omega
    (f.name, (s.sampleValue? chain f.name f.type).getD .null) :: s.sampleMembers chain fields
termination_by (countUnused (s.types.map (·.1)) chain, sizeOf fields)

end

/-- The layout of the variables of an input type; a type that is not defined has none. -/
def sampleVariables (s : Schema) (typeName : String) : List (String × SampleValue) :=
  match s.typeNamed? typeName with
  | some t =>
    t.inputFields.filterMap fun f => (s.sampleValue? [t.name] f.name f.type).map (f.name, ·)
  | none => []

end Schema

namespace SampleValue

/-- Rounded to two decimal places, halves away from zero. -/
def cents (x : Binary64) : Binary64 :=
  let (num, den) := (x.mul (.ofNat 100)).ratio
  .ofRatio false ((2 * num + den) / (2 * den)) 100

variable {σ : Type} (g : Random.Generator σ)

mutual

def draw? : SampleValue → σ → Option (Json × σ)
  | .null, state => some (.null, state)
  | .text value, state => some (.string value, state)
  | .truth, state =>
    let (b, state) := g.coin state
    some (.bool b, state)
  | .whole lo hi, state => (g.wholeNumber? lo hi state).map (Prod.map Json.ofNat id)
  | .numeral lo hi, state =>
    (g.smallNumber? lo hi state).map (Prod.map (fun n => .string (toString n)) id)
  | .amount lo hi, state =>
    (g.fraction? lo hi state).map (Prod.map (fun x => .number (.float (cents x))) id)
  | .list item, state => (draw? item state).map (Prod.map (fun item => .array [item]) id)
  | .object _ members, state =>
    (drawAll? members state).map (Prod.map (fun members => .object (Entries.merge members)) id)

/-- Draws every value, also one that a later value of its name replaces. -/
def drawAll? : List (String × SampleValue) → σ → Option (List (String × Json) × σ)
  | [], state => some ([], state)
  | (name, value) :: members, state => do
    let (value, state) ← draw? value state
    let (members, state) ← drawAll? members state
    return ((name, value) :: members, state)

end

end SampleValue

/-- Sample variables with their numbers drawn. -/
def Schema.drawVariables? {σ : Type} (s : Schema) (g : Random.Generator σ) (typeName : String)
    (state : σ) : Option Json :=
  (SampleValue.drawAll? g (s.sampleVariables typeName) state).map fun (members, _) =>
    .object (Entries.merge members)

end QueryPicker
