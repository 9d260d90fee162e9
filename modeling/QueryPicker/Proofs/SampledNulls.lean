import Mathlib
import QueryPicker.Proofs.SampledRuns

/-!
# Nulls in sample variables

Input types may refer to one another, also to themselves, as long as none of them requires itself:
what leads back may stand in a list, or in a field that can be left out. Samples fill in lists and
such fields too, and stop where an input type would be entered inside itself. There a null stands
even if the reference is non-null, and nowhere else.
-/

namespace QueryPicker

namespace Schema

/-- An input field refers to a scalar, to an enum with values or to an input type with fields. -/
def RefersToInput (s : Schema) (ref : TypeRef) : Prop :=
  match ref.innerKind with
  | .scalar => True
  | .enumeration => ∃ t, s.typeNamed? ref.innerName = some t ∧ t.enumValues ≠ []
  | .inputObject => ∃ t, s.typeNamed? ref.innerName = some t ∧ t.inputFields ≠ []
  | _ => False

def HasInputTypes (s : Schema) : Prop :=
  ∀ entry ∈ s.types, ∀ f ∈ entry.2.inputFields, s.RefersToInput f.type

/-- No value of the one input type is without a value of the other right inside it. -/
def Requires (s : Schema) (name inner : String) : Prop :=
  ∃ t, s.typeNamed? name = some t ∧
    ∃ f ∈ t.inputFields, f.type = .nonNull (.named .inputObject inner)

variable {σ : Type} {s : Schema} {g : Random.Generator σ} {chain : List String} {ref : TypeRef}
  {value : Json}

theorem refersToInput_withoutNonNull :
    s.RefersToInput ref.withoutNonNull ↔ s.RefersToInput ref := by
  induction ref with
  | nonNull inner ih => exact ih
  | named kind name => rfl
  | list inner => rfl

/-- A value is missing exactly where an input type would be entered inside itself. -/
theorem sampleValue?_eq_none_iff (h : s.RefersToInput ref) (field : String) :
    s.sampleValue? chain field ref = none ↔
      ∃ name ∈ chain, ref.withoutNonNull = .named .inputObject name := by
  induction ref with
  | nonNull inner ih =>
    rw [sampleValue?]
    exact ih h
  | list inner =>
    rw [sampleValue?]
    simp [TypeRef.withoutNonNull]
  | named kind name =>
    cases kind with
    | scalar =>
      rw [sampleValue?]
      simp [TypeRef.withoutNonNull]
    | enumeration =>
      rw [sampleValue?]
      simp [TypeRef.withoutNonNull]
    | inputObject =>
      obtain ⟨t, ht, hfields⟩ := h
      rw [Option.eq_none_iff_forall_ne_some]
      simp only [ne_eq, sampleValue?_inputObject_iff]
      constructor
      · intro hnone
        by_contra hcut
        have hn : name ∉ chain := fun hn => hcut ⟨name, hn, rfl⟩
        exact hnone _ ⟨hn, t, ht, hfields, rfl⟩
      · rintro ⟨name', hname', heq⟩ v ⟨hn, -⟩
        obtain ⟨-, rfl⟩ := TypeRef.named.inj heq
        exact hn hname'
    | _ => exact h.elim

theorem IsDrawn.eq_null_iff (h : s.RefersToInput ref) (hdrawn : s.IsDrawn g chain ref value) :
    value = .null ↔ ∃ name ∈ chain, ref.withoutNonNull = .named .inputObject name := by
  constructor
  · rintro rfl
    have hshape := hdrawn.shape
    have hplain := ref.withoutNonNull_withoutNonNull
    have hrefers := refersToInput_withoutNonNull.mpr h
    generalize ref.withoutNonNull = r at hshape hplain hrefers
    cases hshape with
    | missing hnone => exact hplain ▸ (sampleValue?_eq_none_iff hrefers _).mp hnone
  · intro hcut
    obtain ⟨field, state, after, hdraw⟩ := hdrawn
    rw [(sampleValue?_eq_none_iff h field).mpr hcut, Option.getD_none, SampleValue.draw?] at hdraw
    exact (congrArg Prod.fst (Option.some.inj hdraw)).symm

theorem StandsAt.refersToInput (hinputs : s.HasInputTypes) {typeName : String} {root : TypeDef}
    (hroot : s.typeNamed? typeName = some root) {sample : Json.Members}
    (h : s.StandsAt root sample chain ref value) : s.RefersToInput ref := by
  induction h with
  | top _ hf =>
    have hmem := List.mem_of_mem_filter (List.mem_reverse.mp (List.mem_of_find?_eq_some hf))
    exact hinputs _ (mem_types_of_typeNamed? hroot) _ hmem
  | item _ href _ ih =>
    rw [← refersToInput_withoutNonNull, href] at ih
    exact ih
  | member _ _ ht _ hf _ =>
    have hmem := List.mem_reverse.mp (List.mem_of_find?_eq_some hf)
    exact hinputs _ (mem_types_of_typeNamed? ht) _ hmem

/-- There are sample variables if every draw ends. In all that there are, a null stands at a
non-null reference exactly where the reference leads back to an input type that the position is
inside of. -/
theorem null_stands_iff_leads_back (s : Schema) (hinputs : s.HasInputTypes)
    (g : Random.Generator σ) (typeName : String) (root : TypeDef)
    (hroot : s.typeNamed? typeName = some root) (state : σ) :
    (g.EveryDrawEnds → ∃ sample, s.drawVariables? g typeName state = some (.object sample)) ∧
      ∀ sample, s.drawVariables? g typeName state = some (.object sample) →
        ∀ chain ref value, s.StandsAt root sample chain (.nonNull ref) value →
          (value = .null ↔ ∃ name ∈ chain, ref.withoutNonNull = .named .inputObject name) := by
  constructor
  · exact fun hends => exists_drawVariables? hends hroot state
  · intro sample hsample chain ref value hstands
    have hrefers : s.RefersToInput (.nonNull ref) := hstands.refersToInput hinputs hroot
    have hnull := (hstands.isDrawn hroot hsample).eq_null_iff hrefers
    exact hnull

/-- A filter may be made of filters, none of which may be missing from the list. -/
def filterType : TypeDef :=
  .inputObject "Filter"
    [{ name := "since", type := .nonNull (.named .scalar "Date") },
      { name := "all", type := .list (.nonNull (.named .inputObject "Filter")) }]

def filters : Schema :=
  .ofTypes [filterType] "Query" none none

theorem hasInputTypes_filters : filters.HasInputTypes := by
  intro entry hentry f hf
  obtain rfl := List.mem_singleton.mp hentry
  rcases List.mem_cons.mp hf with rfl | hf
  · trivial
  · obtain rfl := List.mem_singleton.mp hf
    exact ⟨filterType, rfl, List.cons_ne_nil _ _⟩

theorem sampleValue?_since : filters.sampleValue? ["Filter"] "since"
    (.nonNull (.named .scalar "Date")) = some (.text SampleValue.date) := by
  rw [sampleValue?, sampleValue?]
  rfl

theorem sampleValue?_all : filters.sampleValue? ["Filter"] "all"
    (.list (.nonNull (.named .inputObject "Filter"))) = some (.list .null) := by
  rw [sampleValue?, sampleValue?, sampleValue?]
  rfl

theorem variableFields_filterType : filters.variableFields filterType = filterType.inputFields := by
  refine List.filter_eq_self.mpr fun f hf => ?_
  rcases List.mem_cons.mp hf with rfl | hf
  · exact Option.isSome_iff_exists.mpr ⟨_, sampleValue?_since⟩
  · obtain rfl := List.mem_singleton.mp hf
    exact Option.isSome_iff_exists.mpr ⟨_, sampleValue?_all⟩

theorem drawVariables?_filters (state : σ) : filters.drawVariables? g "Filter" state =
    some (.object [("since", .string SampleValue.date), ("all", .array [.null])]) := by
  have hroot : filters.typeNamed? "Filter" = some filterType := rfl
  have hlayout : filters.sampleVariables "Filter" =
      [("since", .text SampleValue.date), ("all", .list .null)] := by
    rw [sampleVariables_eq hroot, variableFields_filterType, sampleMembers_eq]
    show [("since", (filters.sampleValue? ["Filter"] "since"
        (.nonNull (.named .scalar "Date"))).getD .null),
      ("all", (filters.sampleValue? ["Filter"] "all"
        (.list (.nonNull (.named .inputObject "Filter")))).getD .null)] = _
    rw [sampleValue?_since, sampleValue?_all]
    rfl
  rw [drawVariables?, hlayout]
  rfl

/-- The date of a filter is never null. -/
theorem null_stands_iff_leads_back_filters :
    filters.HasInputTypes ∧ Random.Generator.counting.EveryDrawEnds ∧ ∃ sample,
      filters.drawVariables? Random.Generator.counting "Filter" 7 = some (.object sample) ∧
        ∀ value, filters.StandsAt filterType sample ["Filter"]
          (.nonNull (.named .scalar "Date")) value → value ≠ .null := by
  obtain ⟨hexists, hnull⟩ := null_stands_iff_leads_back filters hasInputTypes_filters
    Random.Generator.counting "Filter" filterType rfl 7
  obtain ⟨sample, hsample⟩ := hexists Random.everyDrawEnds_counting
  refine ⟨hasInputTypes_filters, Random.everyDrawEnds_counting, sample, hsample, ?_⟩
  intro value hstands hvalue
  obtain ⟨_, -, hname⟩ := (hnull sample hsample _ _ _ hstands).mp hvalue
  cases hname

/-- Filters are made of filters in a list, which may be empty, so no type requires any; the sample
has a null in it. -/
theorem null_stands_in_list_of_filters :
    filters.HasInputTypes ∧ (∀ name, ¬ Relation.TransGen filters.Requires name name) ∧
      ∃ sample, filters.drawVariables? Random.Source.generator "Filter"
          (Random.Source.ofSeed 1) = some (.object sample) ∧
        filters.StandsAt filterType sample ["Filter"] (.nonNull (.named .inputObject "Filter"))
          .null := by
  have hnone : ∀ name inner, ¬ filters.Requires name inner := by
    rintro name inner ⟨t, ht, f, hf, htype⟩
    obtain ⟨rfl, rfl⟩ := Prod.mk.inj (List.mem_singleton.mp (mem_types_of_typeNamed? ht))
    rcases List.mem_cons.mp hf with rfl | hf
    · cases htype
    · obtain rfl := List.mem_singleton.mp hf
      cases htype
  refine ⟨hasInputTypes_filters, fun name hrequires => ?_, _, drawVariables?_filters _, ?_⟩
  · cases hrequires with
    | single h => exact hnone _ _ h
    | tail _ h => exact hnone _ _ h
  · have hf : InputValue.named? (filters.variableFields filterType) "all" =
        some { name := "all", type := .list (.nonNull (.named .inputObject "Filter")) } := by
      rw [variableFields_filterType]
      rfl
    have hall : filters.StandsAt filterType
        [("since", .string SampleValue.date), ("all", .array [.null])] ["Filter"]
        (.list (.nonNull (.named .inputObject "Filter"))) (.array [.null]) :=
      .top (.tail _ (.head _)) hf
    exact .item hall rfl (.head _)

end Schema

end QueryPicker
