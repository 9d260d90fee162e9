import Mathlib
import QueryPicker.Proofs.DescribedSchemas

/-!
# Refused results

A result offers a schema object of its own or, if it has none, the one in its data. It is refused if
it offers none, or if the one that it offers names no query type, and decoded otherwise, whatever
else it holds. The one exception is a result with a schema member of its own that is no object: that
hides the schema object in its data.
-/

namespace QueryPicker.Introspection

/-- The value has a schema object. -/
def HasSchema (value schema : Json) : Prop :=
  value.get? "__schema" = some schema ∧ schema.isObject = true

/-- The schema object of a result, alone or in its data. -/
inductive Offers (result schema : Json) : Prop where
  | alone (h : HasSchema result schema)
  | inData {data} (hnone : ∀ own, ¬ HasSchema result own) (hdata : result.get? "data" = some data)
      (h : HasSchema data schema)

/-- Which results are refused, and for which of the two reasons; all others are decoded. -/
structure DecodesWhatIsOffered (result : Json) : Prop where
  missingSchema : decode result = .error .missingSchema ↔
    (∀ schema, ¬ HasSchema result schema) ∧
      ∀ data schema, result.get? "data" = some data → ¬ HasSchema data schema
  missingQueryType : decode result = .error .missingQueryType ↔
    ∃ schema, Offers result schema ∧ TellsRoot schema "queryType" none
  decoded : (∃ s, decode result = .ok s) ↔
    ∃ schema queryType, Offers result schema ∧ TellsRoot schema "queryType" (some queryType)

variable {result schema : Json} {queryType : String}

theorem not_offers_iff : (∀ schema, ¬ Offers result schema) ↔
    (∀ schema, ¬ HasSchema result schema) ∧
      ∀ data schema, result.get? "data" = some data → ¬ HasSchema data schema := by
  constructor
  · intro h
    have hnone : ∀ schema, ¬ HasSchema result schema := fun schema hown => h schema (.alone hown)
    exact ⟨hnone, fun data schema hdata hschema => h schema (.inData hnone hdata hschema)⟩
  · rintro ⟨hnone, hdata⟩ schema (hown | ⟨-, hget, hschema⟩)
    · exact hnone schema hown
    · exact hdata _ schema hget hschema

theorem decode_of_not_holds (h : ∀ schema, ¬ Holds result schema) :
    decode result = .error .missingSchema := by
  have hnone : (schemaMember? result).filter (·.isObject) = none :=
    Option.eq_none_iff_forall_ne_some.mpr fun schema hschema =>
      h schema (schemaMember?_eq_some_iff.mp hschema)
  rw [decode, hnone]

theorem decode_of_no_query (h : Holds result schema) (hquery : TellsRoot schema "queryType" none) :
    decode result = .error .missingQueryType := by
  rw [decode, schemaMember?_eq_some_iff.mpr h]
  dsimp only
  rw [rootTypeName?_eq_iff.mpr hquery]

theorem exists_decode_of_query (h : Holds result schema)
    (hquery : TellsRoot schema "queryType" (some queryType)) : ∃ s, decode result = .ok s := by
  rw [decode, schemaMember?_eq_some_iff.mpr h]
  dsimp only
  rw [rootTypeName?_eq_iff.mpr hquery]
  exact ⟨_, rfl⟩

/-- Nothing but the schema object and the name of its query type decides. -/
theorem decode_cases (result : Json) :
    ((∀ schema, ¬ Holds result schema) ∧ decode result = .error .missingSchema) ∨
      (∃ schema, Holds result schema ∧ TellsRoot schema "queryType" none ∧
        decode result = .error .missingQueryType) ∨
      ∃ schema queryType s, Holds result schema ∧
        TellsRoot schema "queryType" (some queryType) ∧ decode result = .ok s := by
  by_cases h : ∃ schema, Holds result schema
  · obtain ⟨schema, hholds⟩ := h
    cases hquery : rootTypeName? schema "queryType" with
    | none =>
      have htells := rootTypeName?_eq_iff.mp hquery
      exact .inr (.inl ⟨schema, hholds, htells, decode_of_no_query hholds htells⟩)
    | some queryType =>
      have htells := rootTypeName?_eq_iff.mp hquery
      obtain ⟨s, hs⟩ := exists_decode_of_query hholds htells
      exact .inr (.inr ⟨schema, queryType, s, hholds, htells, hs⟩)
  · have hnone := not_exists.mp h
    exact .inl ⟨hnone, decode_of_not_holds hnone⟩

theorem decodesWhatIsOffered_of_holds_iff
    (h : ∀ schema, Holds result schema ↔ Offers result schema) : DecodesWhatIsOffered result where
  missingSchema := by
    rw [← not_offers_iff]
    simp only [← h]
    refine ⟨fun herror => ?_, decode_of_not_holds⟩
    rcases decode_cases result with ⟨hnone, -⟩ | ⟨_, _, _, hdecode⟩ | ⟨_, _, _, _, _, hdecode⟩
    · exact hnone
    · cases herror.symm.trans hdecode
    · cases herror.symm.trans hdecode
  missingQueryType := by
    simp only [← h]
    refine ⟨fun herror => ?_, fun ⟨schema, hholds, hquery⟩ => decode_of_no_query hholds hquery⟩
    rcases decode_cases result with ⟨-, hdecode⟩ | ⟨schema, hholds, hquery, -⟩ |
      ⟨_, _, _, _, _, hdecode⟩
    · cases herror.symm.trans hdecode
    · exact ⟨schema, hholds, hquery⟩
    · cases herror.symm.trans hdecode
  decoded := by
    simp only [← h]
    refine ⟨fun ⟨s, hs⟩ => ?_, fun ⟨schema, queryType, hholds, hquery⟩ =>
      exists_decode_of_query hholds hquery⟩
    rcases decode_cases result with ⟨-, hdecode⟩ | ⟨_, _, _, hdecode⟩ |
      ⟨schema, queryType, _, hholds, hquery, -⟩
    · cases hs.symm.trans hdecode
    · cases hs.symm.trans hdecode
    · exact ⟨schema, queryType, hholds, hquery⟩

/-- A schema object in the data stands behind a schema member that is none. -/
def HidesSchema (result : Json) : Prop :=
  ∃ own data schema, result.get? "__schema" = some own ∧ own.isObject = false ∧
    result.get? "data" = some data ∧ HasSchema data schema

theorem holds_iff_offers (h : ¬ HidesSchema result) (schema : Json) :
    Holds result schema ↔ Offers result schema := by
  constructor
  · rintro (⟨hget, hobject⟩ | ⟨hnone, hdata, hget, hobject⟩)
    · exact .alone ⟨hget, hobject⟩
    · refine .inData (fun own hown => ?_) hdata ⟨hget, hobject⟩
      cases hnone.symm.trans hown.1
  · rintro (⟨hget, hobject⟩ | ⟨hnone, hdata, hschema⟩)
    · exact .alone hget hobject
    · cases hown : result.get? "__schema" with
      | none => exact .inData hown hdata hschema.1 hschema.2
      | some own =>
        have hother : own.isObject = false :=
          Bool.eq_false_iff.mpr fun hobject => hnone own ⟨hown, hobject⟩
        exact absurd ⟨own, _, schema, hown, hother, hdata, hschema⟩ h

/-- A hidden schema object is not found. -/
theorem HidesSchema.not_holds (h : HidesSchema result) (schema : Json) : ¬ Holds result schema := by
  obtain ⟨own, data, hidden, hown, hother, -⟩ := h
  rintro (⟨hget, hobject⟩ | ⟨hnone, -⟩)
  · obtain rfl := Option.some.inj (hown.symm.trans hget)
    cases hother.symm.trans hobject
  · cases hown.symm.trans hnone

/-- A result is refused for its reasons and for no others, exactly if no schema object is hidden in
it. -/
theorem decodesWhatIsOffered_iff (result : Json) :
    DecodesWhatIsOffered result ↔ ¬ HidesSchema result := by
  refine ⟨fun h hhides => ?_, fun h => decodesWhatIsOffered_of_holds_iff (holds_iff_offers h)⟩
  have hmissing := h.missingSchema.mp (decode_of_not_holds hhides.not_holds)
  obtain ⟨own, data, schema, -, -, hdata, hschema⟩ := hhides
  exact hmissing.2 data schema hdata hschema

/-- A whole response with a schema member of its own, which is null. -/
def besideNull : Json :=
  .object [("__schema", .null),
    ("data", .object [("__schema", .object [("queryType", .object [("name", .string "Query")])])])]

theorem besideNull_refused : decode besideNull = .error .missingSchema ∧
    (∃ schema, Offers besideNull schema ∧ TellsRoot schema "queryType" (some "Query")) ∧
      ¬ DecodesWhatIsOffered besideNull := by
  have hschema : HasSchema
      (.object [("__schema", .object [("queryType", .object [("name", .string "Query")])])])
      (.object [("queryType", .object [("name", .string "Query")])]) := ⟨rfl, rfl⟩
  have hnone : ∀ own, ¬ HasSchema besideNull own := by
    rintro own ⟨⟨⟩, hobject⟩
    cases hobject
  refine ⟨rfl, ⟨_, .inData hnone rfl hschema, rootTypeName?_eq_iff.mp rfl⟩, fun h => ?_⟩
  exact (h.missingSchema.mp rfl).2 _ _ rfl hschema

end QueryPicker.Introspection
