import Mathlib
import QueryPicker.Proofs.DescribedSchemas
import QueryPicker.Proofs.SchemaRoundTrip

/-!
# Lenient decoding

A decoded schema holds everything that its result describes and nothing else. Items that describe
nothing may be put into any list of the result, at any position: they never change what is decoded,
and never what is decoded of the items beside them or of what holds the list.
-/

namespace QueryPicker.Introspection

/-- An item that describes nothing is put into a list, at any position. -/
inductive Inserts {α : Type} (Describes : Json → α → Prop) : List Json → List Json → Prop where
  | mk {before after item} (h : ∀ a, ¬ Describes item a) :
    Inserts Describes (before ++ after) (before ++ item :: after)

/-- One item of a list changes. -/
inductive ChangesItem (Change : Json → Json → Prop) : List Json → List Json → Prop where
  | mk {before after item item'} (h : Change item item') :
    ChangesItem Change (before ++ item :: after) (before ++ item' :: after)

/-- The value of a member changes; all other members stay. -/
inductive ChangesMember (name : String) (Change : Json → Json → Prop) : Json → Json → Prop where
  | mk {members old new} (hold : Entries.get? members name = some old) (h : Change old new) :
    ChangesMember name Change (.object members) (.object (Entries.put members name new))

inductive ChangesArray (Change : List Json → List Json → Prop) : Json → Json → Prop where
  | mk {items items'} (h : Change items items') : ChangesArray Change (.array items) (.array items')

/-- The list of a member changes. -/
def ChangesList (name : String) (Change : List Json → List Json → Prop) : Json → Json → Prop :=
  ChangesMember name (ChangesArray Change)

/-- A field gets an argument that describes nothing. -/
def FieldGains : Json → Json → Prop := ChangesList "args" (Inserts DescribesInput)

/-- One of the lists of a type, or of one of its fields, gets an item that describes nothing. -/
inductive TypeGains (value value' : Json) : Prop where
  | field (h : ChangesList "fields" (Inserts DescribesField) value value')
  | argument (h : ChangesList "fields" (ChangesItem FieldGains) value value')
  | inputField (h : ChangesList "inputFields" (Inserts DescribesInput) value value')
  | enumValue (h : ChangesList "enumValues" (Inserts DescribesEnumValue) value value')
  | possibleType (h : ChangesList "possibleTypes" (Inserts DescribesName) value value')

inductive SchemaGains (value value' : Json) : Prop where
  | type (h : ChangesList "types" (Inserts DescribesType) value value')
  | inType (h : ChangesList "types" (ChangesItem TypeGains) value value')

/-- Somewhere in a schema object of a result a list gets an item that describes nothing. -/
inductive Gains (result result' : Json) : Prop where
  | alone (h : ChangesMember "__schema" SchemaGains result result')
  | inData (h : ChangesMember "data" (ChangesMember "__schema" SchemaGains) result result')

variable {value value' : Json} {name : String} {Change : Json → Json → Prop}

theorem ChangesMember.get?_eq_of_ne (h : ChangesMember name Change value value') {other : String}
    (hother : other ≠ name) : value'.get? other = value.get? other := by
  obtain ⟨hold, -⟩ := h
  rw [Json.get?, Json.get?, Entries.get?_put, if_neg hother.symm]

theorem ChangesMember.exists_get? (h : ChangesMember name Change value value') :
    ∃ old new, value.get? name = some old ∧ value'.get? name = some new ∧ Change old new := by
  obtain ⟨hold, hchange⟩ := h
  refine ⟨_, _, hold, ?_, hchange⟩
  rw [Json.get?, Entries.get?_put, if_pos rfl]

theorem ChangesMember.string?_eq (h : ChangesMember name Change value value') {other : String}
    (hother : other ≠ name) : string? value' other = string? value other := by
  rw [string?, string?, h.get?_eq_of_ne hother]

theorem ChangesMember.flag_eq (h : ChangesMember name Change value value') {other : String}
    (hother : other ≠ name) : flag value' other = flag value other := by
  rw [flag, flag, h.get?_eq_of_ne hother]

section Lists

variable {α : Type} {decode : Json → Option α} {ListChange : List Json → List Json → Prop}
  {items items' : List Json}

theorem filterMap_eq_of_inserts {Describes : Json → α → Prop}
    (hdecode : ∀ item a, decode item = some a ↔ Describes item a)
    (h : Inserts Describes items items') : items'.filterMap decode = items.filterMap decode := by
  obtain ⟨hnothing⟩ := h
  have hnone : decode _ = none :=
    Option.eq_none_iff_forall_ne_some.mpr fun a ha => hnothing a ((hdecode _ a).mp ha)
  rw [List.filterMap_append, List.filterMap_append, List.filterMap_cons_none hnone]

theorem filterMap_eq_of_changesItem
    (hdecode : ∀ item item', Change item item' → decode item' = decode item)
    (h : ChangesItem Change items items') : items'.filterMap decode = items.filterMap decode := by
  obtain ⟨hchange⟩ := h
  simp only [List.filterMap_append, List.filterMap_cons, hdecode _ _ hchange]

/-- A list is decoded to the same, also if it is the one that changes, as long as the change does
not matter to decoding. -/
theorem ChangesList.items?_eq (h : ChangesList name ListChange value value') {other : String}
    (hsame : other = name → ∀ items items', ListChange items items' →
      items'.filterMap decode = items.filterMap decode) :
    items? decode value' other = items? decode value other := by
  rw [items?, items?]
  by_cases hother : other = name
  · obtain ⟨old, new, hold, hnew, hchange⟩ := h.exists_get?
    obtain ⟨hitems⟩ := hchange
    rw [hother, hold, hnew]
    exact congrArg some (hsame hother _ _ hitems)
  · rw [ChangesMember.get?_eq_of_ne h hother]

end Lists

theorem field?_eq_of_gains (h : FieldGains value value') : field? value' = field? value := by
  have hargs : items? inputValue? value' "args" = items? inputValue? value "args" :=
    h.items?_eq fun _ _ _ => filterMap_eq_of_inserts inputValue?_eq_some_iff
  rw [field?, field?, hargs, ChangesMember.string?_eq h (by decide),
    ChangesMember.get?_eq_of_ne h (by decide), ChangesMember.string?_eq h (by decide),
    ChangesMember.flag_eq h (by decide), ChangesMember.string?_eq h (by decide)]

/-- A type is decoded to the same if one of its lists changes in a way that does not matter. -/
theorem typeDef?_eq_of_changesList {ListChange : List Json → List Json → Prop}
    (h : ChangesList name ListChange value value') (hname : name ∉ ["name", "kind", "description"])
    (hfields : "fields" = name → ∀ items items', ListChange items items' →
      items'.filterMap field? = items.filterMap field?)
    (hinputs : "inputFields" = name → ∀ items items', ListChange items items' →
      items'.filterMap inputValue? = items.filterMap inputValue?)
    (henums : "enumValues" = name → ∀ items items', ListChange items items' →
      items'.filterMap enumValue? = items.filterMap enumValue?)
    (hpossible : "possibleTypes" = name → ∀ items items', ListChange items items' →
      items'.filterMap (string? · "name") = items.filterMap (string? · "name")) :
    typeDef? value' = typeDef? value := by
  simp only [List.mem_cons, List.not_mem_nil, or_false, not_or] at hname
  obtain ⟨hname, hkind, hdescription⟩ := hname
  rw [typeDef?, typeDef?, ChangesMember.string?_eq h (Ne.symm hname),
    ChangesMember.string?_eq h (Ne.symm hkind), ChangesMember.string?_eq h (Ne.symm hdescription),
    h.items?_eq hfields, h.items?_eq hinputs, h.items?_eq henums, h.items?_eq hpossible]

theorem typeDef?_eq_of_gains (h : TypeGains value value') : typeDef? value' = typeDef? value := by
  cases h with
  | field h =>
    exact typeDef?_eq_of_changesList h (by decide)
      (fun _ _ _ => filterMap_eq_of_inserts field?_eq_some_iff) (by simp) (by simp) (by simp)
  | argument h =>
    exact typeDef?_eq_of_changesList h (by decide)
      (fun _ _ _ => filterMap_eq_of_changesItem fun _ _ => field?_eq_of_gains)
      (by simp) (by simp) (by simp)
  | inputField h =>
    exact typeDef?_eq_of_changesList h (by decide) (by simp)
      (fun _ _ _ => filterMap_eq_of_inserts inputValue?_eq_some_iff) (by simp) (by simp)
  | enumValue h =>
    exact typeDef?_eq_of_changesList h (by decide) (by simp) (by simp)
      (fun _ _ _ => filterMap_eq_of_inserts enumValue?_eq_some_iff) (by simp)
  | possibleType h =>
    exact typeDef?_eq_of_changesList h (by decide) (by simp) (by simp) (by simp)
      (fun _ _ _ => filterMap_eq_of_inserts possibleType?_eq_some_iff)

/-- The types and the roots of a schema object stay what they are. -/
theorem schemaParts_eq_of_gains (h : SchemaGains value value') :
    items? typeDef? value' "types" = items? typeDef? value "types" ∧
      ∀ root, root ≠ "types" → rootTypeName? value' root = rootTypeName? value root := by
  cases h with
  | type h =>
    refine ⟨h.items?_eq fun _ _ _ => filterMap_eq_of_inserts typeDef?_eq_some_iff, ?_⟩
    intro root hroot
    rw [rootTypeName?, rootTypeName?, ChangesMember.get?_eq_of_ne h hroot]
  | inType h =>
    refine ⟨h.items?_eq fun _ _ _ =>
      filterMap_eq_of_changesItem fun _ _ => typeDef?_eq_of_gains, ?_⟩
    intro root hroot
    rw [rootTypeName?, rootTypeName?, ChangesMember.get?_eq_of_ne h hroot]

theorem decode_eq_of_schemaMember? {result result' schema schema' : Json}
    (h : schemaMember? result = some schema) (h' : schemaMember? result' = some schema')
    (hgains : SchemaGains schema schema') : decode result' = decode result := by
  obtain ⟨htypes, hroots⟩ := schemaParts_eq_of_gains hgains
  have hobject : schema'.isObject = schema.isObject := by
    rcases hgains with ⟨⟨-, -⟩⟩ | ⟨⟨-, -⟩⟩ <;> rfl
  rw [decode, decode, h, h', Option.filter_some, Option.filter_some, hobject]
  cases schema.isObject with
  | false => rfl
  | true =>
    simp only [if_true, htypes, hroots "queryType" (by decide), hroots "mutationType" (by decide),
      hroots "subscriptionType" (by decide)]

/-- One more item that describes nothing does not change what is decoded, whether or not anything
is. -/
theorem decode_eq_of_gains {result result' : Json} (h : Gains result result') :
    decode result' = decode result := by
  cases h with
  | alone h =>
    obtain ⟨schema, schema', hget, hget', hgains⟩ := h.exists_get?
    exact decode_eq_of_schemaMember? (by rw [schemaMember?, hget]) (by rw [schemaMember?, hget'])
      hgains
  | inData h =>
    obtain ⟨data, data', hdata, hdata', hchange⟩ := h.exists_get?
    obtain ⟨schema, schema', hget, hget', hgains⟩ := hchange.exists_get?
    have hbeside : result'.get? "__schema" = result.get? "__schema" := h.get?_eq_of_ne (by decide)
    cases hown : result.get? "__schema" with
    | some own =>
      rw [hown] at hbeside
      rw [decode, decode, schemaMember?, schemaMember?, hown, hbeside]
    | none =>
      rw [hown] at hbeside
      exact decode_eq_of_schemaMember? (by rw [schemaMember?, hown, hdata]; exact hget)
        (by rw [schemaMember?, hbeside, hdata']; exact hget') hgains

theorem Keeps.exists_item {α : Type} {Describes : Json → α → Prop} {items : List Json}
    {as : List α} (h : Keeps Describes items as) : ∀ a ∈ as, ∃ item, Describes item a := by
  induction h with
  | nil => simp
  | keep h _ ih => simpa using ⟨⟨_, h⟩, ih⟩
  | drop _ _ ih => exact ih

theorem Lists.exists_item {α : Type} {Describes : Json → α → Prop} {as? : Option (List α)}
    (h : Lists Describes value name as?) : ∀ a ∈ as?.getD [], ∃ item, Describes item a := by
  cases as? with
  | none => simp
  | some as =>
    obtain ⟨items, -, hkept⟩ := (h as).mp rfl
    exact hkept.exists_item

theorem DescribesRef.isWrapper_innerKind {r : TypeRef} (h : DescribesRef value r) :
    r.innerKind.isWrapper = false := by
  induction h with
  | named _ hnamed _ => exact hnamed
  | list _ _ _ ih | nonNull _ _ _ ih => exact ih

theorem DescribesInput.isWrapper_innerKind {v : InputValue} (h : DescribesInput value v) :
    v.type.innerKind.isWrapper = false := by
  obtain ⟨ref, -, href⟩ := h.type
  exact href.isWrapper_innerKind

theorem DescribesField.isWrapper_innerKind {f : Field} (h : DescribesField value f) :
    ∀ r ∈ f.references, r.innerKind.isWrapper = false := by
  obtain ⟨ref, -, href⟩ := h.type
  obtain ⟨args?, hlists, hargs⟩ := h.args
  intro r hr
  rcases List.mem_cons.mp hr with rfl | hr
  · exact href.isWrapper_innerKind
  · obtain ⟨v, hv, rfl⟩ := List.mem_map.mp hr
    obtain ⟨item, hitem⟩ := hlists.exists_item v (hargs ▸ hv)
    exact hitem.isWrapper_innerKind

theorem DescribesType.isWrapper_innerKind {t : TypeDef} (h : DescribesType value t) :
    ∀ r ∈ t.references, r.innerKind.isWrapper = false := by
  intro r hr
  rcases List.mem_append.mp hr with hr | hr
  · obtain ⟨f, hf, hr⟩ := List.mem_flatMap.mp hr
    obtain ⟨item, hitem⟩ := h.fields.exists_item f hf
    exact hitem.isWrapper_innerKind r hr
  · obtain ⟨v, hv, rfl⟩ := List.mem_map.mp hr
    obtain ⟨item, hitem⟩ := h.inputFields.exists_item v hv
    exact hitem.isWrapper_innerKind

theorem firstOfEachName_subset (definitions : List TypeDef) :
    ∀ t ∈ firstOfEachName definitions, t ∈ definitions := by
  intro t ht
  obtain ⟨e, he, rfl⟩ := List.mem_map.mp ht
  exact List.fst_mem_of_mem_zipIdx (List.mem_of_mem_filter he)

theorem Describes.isKeyed {s : Schema} (h : Describes value s) : s.IsKeyed := by
  obtain ⟨definitions?, -, htypes⟩ := h.types
  intro entry he
  rw [htypes] at he
  obtain ⟨t, -, rfl⟩ := List.mem_map.mp he
  rfl

theorem Describes.isUnwrapped {s : Schema} (h : Describes value s) : s.IsUnwrapped := by
  obtain ⟨definitions?, hlists, htypes⟩ := h.types
  intro entry he
  rw [htypes] at he
  obtain ⟨t, ht, rfl⟩ := List.mem_map.mp he
  obtain ⟨item, hitem⟩ := hlists.exists_item t (firstOfEachName_subset _ t ht)
  exact ⟨hitem.unwrapped, hitem.isWrapper_innerKind⟩

/-- A decoded schema is what the schema object of the result describes: the first definition of each
type name, under that name, and in every list what the items describe, in order. Nothing in it is of
a wrapper kind, and any number of items that describe nothing may be put into the lists of the
result. -/
theorem decode_keeps_described {result : Json} {s : Schema} (h : decode result = .ok s) :
    (∃ schema, Holds result schema ∧ Describes schema s) ∧
      (∀ item, (∃ t, DescribesType item t) ↔ DefinesType item) ∧ s.IsKeyed ∧ s.IsUnwrapped ∧
      ∀ result', Relation.ReflTransGen Gains result result' → decode result' = .ok s := by
  obtain ⟨schema, hholds, hdescribes⟩ := decode_eq_ok_iff.mp h
  refine ⟨⟨schema, hholds, hdescribes⟩, fun _ => exists_describesType_iff, hdescribes.isKeyed,
    hdescribes.isUnwrapped, ?_⟩
  intro result' hgains
  induction hgains with
  | refl => exact h
  | tail _ hstep ih => rw [decode_eq_of_gains hstep, ih]

def wrapperType : Json := .object [("kind", .string "LIST"), ("name", .string "Query")]

/-- Two definitions of one type, the first with an argument that has no type. -/
def queryTypes : List Json :=
  [.object [("kind", .string "OBJECT"), ("name", .string "Query"), ("fields", .array [
    .object [("name", .string "ok"), ("args", .array [.object [("name", .string "in")]]),
      ("type", .object [("kind", .string "SCALAR"), ("name", .string "Int")])]])],
  .object [("kind", .string "SCALAR"), ("name", .string "Query")]]

def crowded (more : List Json) : Json :=
  .object [("__schema", .object [("queryType", .object [("name", .string "Query")]),
    ("types", .array ([wrapperType] ++ more ++ queryTypes))])]

def uncrowded : Schema where
  types := [("Query", .object "Query" [{ name := "ok", type := .named .scalar "Int" }])]
  queryType := "Query"
  mutationType := none
  subscriptionType := none

theorem gains_crowded : Gains (crowded []) (crowded [.ofNat 7]) := by
  have hnothing : ∀ t, ¬ DescribesType (.ofNat 7) t := fun _ h => nomatch h.name
  have hinserts : Inserts DescribesType ([wrapperType] ++ queryTypes)
      ([wrapperType] ++ .ofNat 7 :: queryTypes) := .mk hnothing
  exact .alone (.mk rfl (.type (.mk rfl (.mk hinserts))))

theorem decode_keeps_described_crowded : decode (crowded []) = .ok uncrowded ∧
    (∃ schema, Holds (crowded []) schema ∧ Describes schema uncrowded) ∧
      uncrowded.IsKeyed ∧ uncrowded.IsUnwrapped ∧ decode (crowded [.ofNat 7]) = .ok uncrowded := by
  have hdecode : decode (crowded []) = .ok uncrowded := rfl
  obtain ⟨hdescribes, -, hkeyed, hunwrapped, hgains⟩ := decode_keeps_described hdecode
  exact ⟨hdecode, hdescribes, hkeyed, hunwrapped, hgains _ (.single gains_crowded)⟩

end QueryPicker.Introspection
