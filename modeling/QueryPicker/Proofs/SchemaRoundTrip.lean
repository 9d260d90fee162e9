import Mathlib
import QueryPicker.Introspection.Decoder
import QueryPicker.Introspection.Encoder

/-!
# Describing and decoding a schema

A description of a schema is decoded to the schema itself, whether it stands alone or inside `data`.
That holds of every schema that looks its types up by their own names and uses wrapper kinds for
nothing but layers; any other schema has no description of its own.
-/

namespace QueryPicker

/-- The type references of a field: its own and those of its arguments. -/
def Field.references (f : Field) : List TypeRef := f.type :: f.args.map (·.type)

/-- All type references of a type. -/
def TypeDef.references (t : TypeDef) : List TypeRef :=
  t.fields.flatMap Field.references ++ t.inputFields.map (·.type)

namespace Schema

/-- Types and what references name are of no wrapper kind. -/
def IsUnwrapped (s : Schema) : Prop :=
  ∀ entry ∈ s.types, entry.2.kind.isWrapper = false ∧
    ∀ r ∈ entry.2.references, r.innerKind.isWrapper = false

/-- Every type is looked up by its own name. -/
def IsKeyed (s : Schema) : Prop := ∀ entry ∈ s.types, entry.1 = entry.2.name

/-- The types, with their own names as lookup names again. -/
theorem map_types_of_isKeyed {s : Schema} (h : s.IsKeyed) :
    (s.types.map (·.2)).map (fun t => (t.name, t)) = s.types := by
  rw [List.map_map]
  refine (List.map_congr_left fun entry he => ?_).trans (List.map_id _)
  exact Prod.ext (h entry he).symm rfl

end Schema

theorem firstByName_of_nodup {α : Type} {entries : List (String × α)}
    (h : (entries.map (·.1)).Nodup) : firstByName entries = entries := by
  induction entries with
  | nil => rfl
  | cons entry entries ih =>
    obtain ⟨hnew, hrest⟩ := List.nodup_cons.mp h
    rw [firstByName, ih hrest]
    congr 1
    refine List.filter_eq_self.mpr fun e he => ?_
    have hne : e.1 ≠ entry.1 := fun heq => hnew (List.mem_map.mpr ⟨e, he, heq⟩)
    simpa using hne

namespace Introspection

theorem items?_encodeList? {α : Type} {decode : Json → Option α} {encode : α → Json} {value : Json}
    {name : String} {as? : Option (List α)} (hget : value.get? name = some (encodeList? encode as?))
    (hdecode : ∀ a ∈ as?.getD [], decode (encode a) = some a) :
    items? decode value name = as? := by
  rw [items?, hget]
  cases as? with
  | none => rfl
  | some as =>
    have hall : (as.map encode).filterMap decode = as := by
      rw [List.filterMap_map]
      exact (List.filterMap_congr hdecode).trans List.filterMap_some
    simp [encodeList?, Json.array?, hall]

theorem string?_ofString? {value : Json} {name : String} {text? : Option String}
    (hget : value.get? name = some (.ofString? text?)) : string? value name = text? := by
  rw [string?, hget]
  cases text? <;> rfl

theorem typeRef?_encodeTypeRef {r : TypeRef} (h : r.innerKind.isWrapper = false) :
    typeRef? (encodeTypeRef r) = some r := by
  induction r with
  | named kind name => cases kind <;> first | rfl | cases h
  | list inner ih => exact congrArg (Option.map TypeRef.list) (ih h)
  | nonNull inner ih => exact congrArg (Option.map TypeRef.nonNull) (ih h)

theorem inputValue?_encodeInputValue {v : InputValue} (h : v.type.innerKind.isWrapper = false) :
    inputValue? (encodeInputValue v) = some v := by
  have hdescription : string? (encodeInputValue v) "description" = v.description :=
    string?_ofString? rfl
  have hdefault : string? (encodeInputValue v) "defaultValue" = v.defaultValue :=
    string?_ofString? rfl
  have hname : string? (encodeInputValue v) "name" = some v.name := rfl
  have htype : ((encodeInputValue v).get? "type").bind typeRef? = some v.type :=
    typeRef?_encodeTypeRef h
  rw [inputValue?, hname, htype, hdescription, hdefault]
  rfl

theorem field?_encodeField {f : Field} (h : ∀ r ∈ f.references, r.innerKind.isWrapper = false) :
    field? (encodeField f) = some f := by
  have hname : string? (encodeField f) "name" = some f.name := rfl
  have htype : ((encodeField f).get? "type").bind typeRef? = some f.type :=
    typeRef?_encodeTypeRef (h _ (List.mem_cons_self ..))
  have hdescription : string? (encodeField f) "description" = f.description :=
    string?_ofString? rfl
  have hargs : items? inputValue? (encodeField f) "args" = some f.args :=
    items?_encodeList? rfl fun v hv =>
      inputValue?_encodeInputValue (h _ (List.mem_cons_of_mem _ (List.mem_map_of_mem hv)))
  have hflag : flag (encodeField f) "isDeprecated" = f.isDeprecated := rfl
  have hreason : string? (encodeField f) "deprecationReason" = f.deprecationReason :=
    string?_ofString? rfl
  rw [field?, hname, htype, hdescription, hargs, hflag, hreason]
  rfl

theorem enumValue?_encodeEnumValue (v : EnumValue) : enumValue? (encodeEnumValue v) = some v := by
  have hname : string? (encodeEnumValue v) "name" = some v.name := rfl
  have hdescription : string? (encodeEnumValue v) "description" = v.description :=
    string?_ofString? rfl
  have hflag : flag (encodeEnumValue v) "isDeprecated" = v.isDeprecated := rfl
  have hreason : string? (encodeEnumValue v) "deprecationReason" = v.deprecationReason :=
    string?_ofString? rfl
  rw [enumValue?, hname, hdescription, hflag, hreason]
  rfl

theorem typeDef?_encodeTypeDef {t : TypeDef} (hkind : t.kind.isWrapper = false)
    (h : ∀ r ∈ t.references, r.innerKind.isWrapper = false) :
    typeDef? (encodeTypeDef t) = some t := by
  have hname : string? (encodeTypeDef t) "name" = some t.name := rfl
  have hkindName : (string? (encodeTypeDef t) "kind").bind TypeKind.ofName? = some t.kind :=
    TypeKind.ofName?_name t.kind
  have hdescription : string? (encodeTypeDef t) "description" = t.description :=
    string?_ofString? rfl
  have hfields : items? field? (encodeTypeDef t) "fields" = t.fields? :=
    items?_encodeList? rfl fun f hf => field?_encodeField fun r hr =>
      h r (List.mem_append_left _ (List.mem_flatMap.mpr ⟨f, hf, hr⟩))
  have hinputs : items? inputValue? (encodeTypeDef t) "inputFields" = t.inputFields? :=
    items?_encodeList? rfl fun v hv => inputValue?_encodeInputValue
      (h _ (List.mem_append_right _ (List.mem_map_of_mem hv)))
  have henums : items? enumValue? (encodeTypeDef t) "enumValues" = t.enumValues? :=
    items?_encodeList? rfl fun v _ => enumValue?_encodeEnumValue v
  have hpossible : items? (string? · "name") (encodeTypeDef t) "possibleTypes" = t.possibleTypes? :=
    items?_encodeList? rfl fun _ _ => rfl
  rw [typeDef?, hname, hkindName, hdescription, hfields, hinputs, henums, hpossible]
  simp [hkind]

theorem rootTypeName?_encodeRoot {schema : Json} {name : String} {root? : Option String}
    (hget : schema.get? name = some (encodeRoot root?)) : rootTypeName? schema name = root? := by
  rw [rootTypeName?, hget]
  cases root? <;> rfl

theorem decode_of_schemaMember? {result : Json} {s : Schema}
    (hmember : schemaMember? result = some (encode s)) (hkeyed : s.IsKeyed)
    (hunwrapped : s.IsUnwrapped) : decode result = .ok s := by
  have hquery : rootTypeName? (encode s) "queryType" = some s.queryType := rfl
  have hmutation : rootTypeName? (encode s) "mutationType" = s.mutationType :=
    rootTypeName?_encodeRoot rfl
  have hsubscription : rootTypeName? (encode s) "subscriptionType" = s.subscriptionType :=
    rootTypeName?_encodeRoot rfl
  have htypes : items? typeDef? (encode s) "types" = some (s.types.map (·.2)) := by
    have hencoded : (encode s).get? "types" =
        some (encodeList? encodeTypeDef (some (s.types.map (·.2)))) := by
      rw [encodeList?, List.map_map]
      rfl
    refine items?_encodeList? hencoded fun t ht => ?_
    obtain ⟨entry, he, rfl⟩ := List.mem_map.mp ht
    obtain ⟨hkind, hreferences⟩ := hunwrapped entry he
    exact typeDef?_encodeTypeDef hkind hreferences
  have hfilter : (some (encode s)).filter (·.isObject) = some (encode s) := rfl
  rw [decode, hmember, hfilter]
  dsimp only
  rw [hquery, hmutation, hsubscription, htypes]
  obtain ⟨types, queryType, mutationType, subscriptionType, hnodup⟩ := s
  simp only [Option.getD_some, Schema.ofTypes, Schema.ofEntries, Schema.map_types_of_isKeyed hkeyed,
    firstByName_of_nodup hnodup]

/-- The description of a schema is decoded to the schema, alone and inside `data`. -/
theorem decode_encode (s : Schema) (hkeyed : s.IsKeyed) (hunwrapped : s.IsUnwrapped) :
    decode (.object [("__schema", encode s)]) = .ok s ∧
      decode (.object [("data", .object [("__schema", encode s)])]) = .ok s :=
  ⟨decode_of_schemaMember? rfl hkeyed hunwrapped, decode_of_schemaMember? rfl hkeyed hunwrapped⟩

/-- Books by language, with a list of lists, a default value, and what is no longer used. -/
def shelf : Schema where
  types := [
    ("Query", { TypeDef.object "Query" [
      { name := "books", type := .nonNull (.list (.nonNull (.list (.named .interface "Item"))))
        args := [{ name := "by", type := .named .inputObject "By", defaultValue := some "null" }] },
      { name := "book", type := .named .object "Book", isDeprecated := true
        deprecationReason := some "use books" }] with description := some "The root." }),
    ("Item", { TypeDef.interface "Item" [] with possibleTypes? := some ["Book"] }),
    ("Book", { TypeDef.object "Book" [] with fields? := none }),
    ("By", .inputObject "By" [{ name := "in", type := .nonNull (.named .enumeration "Language") }]),
    ("Language", { TypeDef.enumeration "Language" ["EN"] with
      enumValues? := some [{ name := "EN" }, { name := "LA", isDeprecated := true }] })]
  queryType := "Query"
  mutationType := some "Change"
  subscriptionType := none

/-- Absent lists stay apart from empty ones, and a root type need not be defined. -/
theorem decode_encode_shelf : shelf.IsKeyed ∧ shelf.IsUnwrapped ∧
    decode (.object [("__schema", encode shelf)]) = .ok shelf ∧
      decode (.object [("data", .object [("__schema", encode shelf)])]) = .ok shelf := by
  have hkeyed : shelf.IsKeyed := by
    unfold Schema.IsKeyed
    decide
  have hunwrapped : shelf.IsUnwrapped := by
    unfold Schema.IsUnwrapped
    decide
  exact ⟨hkeyed, hunwrapped, decode_encode shelf hkeyed hunwrapped⟩

end Introspection

end QueryPicker
