import Mathlib
import QueryPicker.Proofs.JsonRoundTrip
import QueryPicker.Sample.Variables

/-!
# Positions in sample variables

Every value in the sample variables of an input type stands at a reference and inside some input
types: a variable at the type of its field and inside the type it is sampled for, an item at what
its list is a list of, and a member at the type of its field and inside one more type. Whatever
stands at a position was drawn from the layout for the reference and these types.
-/

namespace QueryPicker

namespace Entries

variable {α : Type}

/-- Of entries with one name the last one is what the name stands for. -/
theorem get?_putAll (entries more : List (String × α)) (name : String) :
    get? (putAll entries more) name = (get? more.reverse name).or (get? entries name) := by
  induction more generalizing entries with
  | nil => rfl
  | cons e more ih =>
    have hstep : putAll entries (e :: more) = putAll (put entries e.1 e.2) more := rfl
    rw [hstep, ih, get?_put, List.reverse_cons, get?_concat, Option.or_assoc]
    congr 1
    by_cases h : e.1 = name <;> simp [h]

theorem nodup_merge (entries : List (String × α)) : ((merge entries).map (·.1)).Nodup :=
  nodup_putAll List.nodup_nil

theorem get?_merge (entries : List (String × α)) (name : String) :
    get? (merge entries) name = get? entries.reverse name := by
  rw [merge, get?_putAll]
  exact Option.or_none

/-- Names that are new follow in the order in which they come first. -/
theorem map_fst_putAll (entries more : List (String × α)) :
    (putAll entries more).map (·.1) = entries.map (·.1) ++
      ((more.map (·.1)).filter fun name => decide (name ∉ entries.map (·.1))).eraseDups := by
  induction more generalizing entries with
  | nil => simp [putAll]
  | cons e more ih =>
    have hstep : putAll entries (e :: more) = putAll (put entries e.1 e.2) more := rfl
    rw [hstep, ih, map_fst_put, List.map_cons]
    by_cases h : e.1 ∈ entries.map (·.1)
    · rw [if_pos h, List.filter_cons_of_neg (by simpa using h)]
    · rw [if_neg h, List.filter_cons_of_pos (by simpa using h), List.eraseDups_cons,
        List.filter_filter, List.append_assoc, List.singleton_append]
      congr 4
      funext name
      rw [Bool.eq_iff_iff]
      simp only [List.mem_append, List.mem_singleton, not_or, decide_eq_true_eq, Bool.and_eq_true,
        Bool.not_eq_true', beq_eq_false_iff_ne, ne_eq, and_comm]

theorem map_fst_merge (entries : List (String × α)) :
    (merge entries).map (·.1) = (entries.map (·.1)).eraseDups := by
  rw [merge, map_fst_putAll]
  simp

end Entries

/-- What an object or an array holds. -/
inductive Json.Holds : Json → Json → Prop
  | member {members name value} (h : (name, value) ∈ members) : Holds (.object members) value
  | item {items value} (h : value ∈ items) : Holds (.array items) value

/-- What is left of a reference without the non-null layers around it. -/
def TypeRef.withoutNonNull : TypeRef → TypeRef
  | .nonNull inner => inner.withoutNonNull
  | ref => ref

theorem TypeRef.withoutNonNull_withoutNonNull (ref : TypeRef) :
    ref.withoutNonNull.withoutNonNull = ref.withoutNonNull := by
  induction ref with
  | nonNull inner ih => exact ih
  | named kind name => rfl
  | list inner => rfl

/-- The field that a name stands for: of several of one name the last one, whose value replaces
those of the others. -/
def InputValue.named? (fields : List InputValue) (name : String) : Option InputValue :=
  fields.reverse.find? (·.name == name)

namespace SampleValue

variable {σ : Type} {g : Random.Generator σ} {state after : σ}

/-- What is written of a value that is drawn first. -/
theorem written_eq_some_iff {α : Type} {drawn : Option (α × σ)} {write : α → Json} {value : Json} :
    drawn.map (Prod.map write id) = some (value, after) ↔
      ∃ a, drawn = some (a, after) ∧ value = write a := by
  simp only [Option.map_eq_some_iff, Prod.exists, Prod.map_apply, id_eq, Prod.mk.injEq]
  constructor
  · rintro ⟨a, _, hdrawn, rfl, rfl⟩
    exact ⟨a, hdrawn, rfl⟩
  · rintro ⟨a, hdrawn, rfl⟩
    exact ⟨a, after, hdrawn, rfl, rfl⟩

theorem draw?_list_iff {v : SampleValue} {value : Json} :
    (list v).draw? g state = some (value, after) ↔
      ∃ item, v.draw? g state = some (item, after) ∧ value = .array [item] := by
  rw [draw?]
  exact written_eq_some_iff

theorem draw?_object_iff {type : String} {members : List (String × SampleValue)} {value : Json} :
    (object type members).draw? g state = some (value, after) ↔
      ∃ entries, drawAll? g members state = some (entries, after) ∧
        value = .object (Entries.merge entries) := by
  rw [draw?]
  exact written_eq_some_iff

/-- A named value is drawn before the others. -/
theorem drawn_cons_iff {α : Type} {name : String} {first : Option (α × σ)}
    {others : σ → Option (List (String × α) × σ)} {drawn : List (String × α)} :
    (do
      let (value, state) ← first
      let (rest, state) ← others state
      return ((name, value) :: rest, state)) = some (drawn, after) ↔
    ∃ value between rest, first = some (value, between) ∧ others between = some (rest, after) ∧
      drawn = (name, value) :: rest := by
  simp only [Option.bind_eq_bind, Option.bind_eq_some_iff, Prod.exists, Option.pure_def,
    Option.some.injEq, Prod.mk.injEq]
  constructor
  · rintro ⟨value, between, hvalue, rest, _, hrest, rfl, rfl⟩
    exact ⟨value, between, rest, hvalue, hrest, rfl⟩
  · rintro ⟨value, between, rest, hvalue, hrest, rfl⟩
    exact ⟨value, between, hvalue, rest, after, hrest, rfl, rfl⟩

theorem drawAll?_cons_iff {name : String} {v : SampleValue} {vs : List (String × SampleValue)}
    {entries : Json.Members} :
    drawAll? g ((name, v) :: vs) state = some (entries, after) ↔ ∃ value between rest,
      v.draw? g state = some (value, between) ∧ drawAll? g vs between = some (rest, after) ∧
        entries = (name, value) :: rest := by
  rw [drawAll?]
  exact drawn_cons_iff

end SampleValue

namespace Schema

/-- The fields of an input type that have a value at the top level. -/
def variableFields (s : Schema) (root : TypeDef) : List InputValue :=
  root.inputFields.filter fun f => (s.sampleValue? [root.name] f.name f.type).isSome

/-- Where a value stands in sample variables of a type: inside which input types, the innermost
first, and at which reference. -/
inductive StandsAt (s : Schema) (root : TypeDef) (sample : Json.Members) :
    List String → TypeRef → Json → Prop
  | top {name value f} (hvalue : (name, value) ∈ sample)
      (hf : InputValue.named? (s.variableFields root) name = some f) :
      StandsAt s root sample [root.name] f.type value
  | item {chain ref inner items item} (h : StandsAt s root sample chain ref (.array items))
      (href : ref.withoutNonNull = .list inner) (hitem : item ∈ items) :
      StandsAt s root sample chain inner item
  | member {chain ref typeName t members name value f}
      (h : StandsAt s root sample chain ref (.object members))
      (href : ref.withoutNonNull = .named .inputObject typeName)
      (ht : s.typeNamed? typeName = some t) (hvalue : (name, value) ∈ members)
      (hf : InputValue.named? t.inputFields name = some f) :
      StandsAt s root sample (typeName :: chain) f.type value

variable {σ : Type} {s : Schema} {g : Random.Generator σ}

theorem sampleMembers_eq (chain : List String) (fields : List InputValue) :
    s.sampleMembers chain fields =
      fields.map fun f => (f.name, (s.sampleValue? chain f.name f.type).getD .null) := by
  induction fields with
  | nil => rw [sampleMembers, List.map_nil]
  | cons f fields ih => rw [sampleMembers, ih, List.map_cons]

theorem sampleValue?_inputObject_iff {chain : List String} {field name : String} {v : SampleValue} :
    s.sampleValue? chain field (.named .inputObject name) = some v ↔
      name ∉ chain ∧ ∃ t, s.typeNamed? name = some t ∧ t.inputFields ≠ [] ∧
        v = .object name (s.sampleMembers (name :: chain) t.inputFields) := by
  rw [sampleValue?]
  by_cases hn : name ∈ chain
  · simp [hn]
  · rw [dif_neg hn]
    split
    · rename_i ht
      simp [ht]
    · rename_i t ht
      constructor
      · intro h
        split at h
        · cases h
        · rename_i hfields
          exact ⟨hn, t, ht, by simpa using hfields, (Option.some.inj h).symm⟩
      · rintro ⟨-, t', ht', hfields, rfl⟩
        obtain rfl := Option.some.inj (ht.symm.trans ht')
        rw [if_neg (by simpa using hfields)]

/-- The variables are drawn as the members of an object are, but without the fields that have no
value. -/
theorem sampleVariables_eq {typeName : String} {root : TypeDef}
    (hroot : s.typeNamed? typeName = some root) :
    s.sampleVariables typeName = s.sampleMembers [root.name] (s.variableFields root) := by
  simp only [sampleVariables, hroot, sampleMembers_eq, variableFields]
  induction root.inputFields with
  | nil => rfl
  | cons f fields ih =>
    cases hvalue : s.sampleValue? [root.name] f.name f.type <;> simp [hvalue, ih]

/-- What is drawn for a reference inside the types of a chain. -/
def IsDrawn (s : Schema) (g : Random.Generator σ) (chain : List String) (ref : TypeRef)
    (value : Json) : Prop :=
  ∃ field state after,
    ((s.sampleValue? chain field ref).getD .null).draw? g state = some (value, after)

/-- Members are drawn one for each field, in their order; names may still repeat. -/
theorem drawn_fields {chain : List String} {fields : List InputValue} {entries : Json.Members}
    {state after : σ}
    (h : SampleValue.drawAll? g (s.sampleMembers chain fields) state = some (entries, after)) :
    List.Forall₂ (fun f (e : String × Json) => e.1 = f.name ∧ s.IsDrawn g chain f.type e.2)
      fields entries := by
  induction fields generalizing state entries with
  | nil =>
    rw [sampleMembers, SampleValue.drawAll?] at h
    obtain ⟨rfl, -⟩ := Prod.mk.inj (Option.some.inj h)
    exact .nil
  | cons f fields ih =>
    rw [sampleMembers] at h
    obtain ⟨value, between, rest, hvalue, hrest, rfl⟩ := SampleValue.drawAll?_cons_iff.mp h
    exact .cons ⟨rfl, f.name, state, between, hvalue⟩ (ih hrest)

theorem exists_field_of_get? {chain : List String} {fields : List InputValue}
    {entries : Json.Members} {name : String} {value : Json}
    (h : List.Forall₂ (fun f (e : String × Json) => e.1 = f.name ∧ s.IsDrawn g chain f.type e.2)
      fields entries) (hget : Entries.get? entries name = some value) :
    ∃ f, fields.find? (·.name == name) = some f ∧ s.IsDrawn g chain f.type value := by
  induction h with
  | nil => cases hget
  | @cons f e fields entries hfe _ ih =>
    rw [Entries.get?_cons, hfe.1] at hget
    by_cases hname : f.name = name
    · rw [if_pos hname] at hget
      obtain rfl := Option.some.inj hget
      exact ⟨f, List.find?_cons_of_pos (by simpa using hname), hfe.2⟩
    · rw [if_neg hname] at hget
      rw [List.find?_cons_of_neg (by simpa using hname)]
      exact ih hget

/-- Every name among drawn members stands for what is drawn for the field of that name: after
merging, a name stands for its last member, which is the first one from the end. -/
theorem exists_field_of_drawn {chain : List String} {fields : List InputValue}
    {entries : Json.Members} {state after : σ} {name : String} {value : Json}
    (hdraw : SampleValue.drawAll? g (s.sampleMembers chain fields) state = some (entries, after))
    (h : (name, value) ∈ Entries.merge entries) :
    ∃ f, InputValue.named? fields name = some f ∧ s.IsDrawn g chain f.type value := by
  have hget := Entries.get?_of_mem (Entries.nodup_merge _) h
  rw [Entries.get?_merge] at hget
  exact exists_field_of_get? (List.forall₂_reverse_iff.mpr (drawn_fields hdraw)) hget

theorem isDrawn_of_named? {chain : List String} {fields : List InputValue}
    {entries : Json.Members} {state after : σ} {name : String} {value : Json} {f : InputValue}
    (hdraw : SampleValue.drawAll? g (s.sampleMembers chain fields) state = some (entries, after))
    (h : (name, value) ∈ Entries.merge entries) (hf : InputValue.named? fields name = some f) :
    s.IsDrawn g chain f.type value := by
  obtain ⟨f', hf', hdrawn⟩ := exists_field_of_drawn hdraw h
  obtain rfl := Option.some.inj (hf.symm.trans hf')
  exact hdrawn

theorem isDrawn_nonNull {chain : List String} {inner : TypeRef} {value : Json} :
    s.IsDrawn g chain (.nonNull inner) value ↔ s.IsDrawn g chain inner value := by
  simp only [IsDrawn, sampleValue?]

/-- The values that can be drawn for a reference without non-null layers. -/
inductive Shape (s : Schema) (g : Random.Generator σ) (chain : List String) :
    TypeRef → Json → Prop
  | missing {ref field} (h : s.sampleValue? chain field ref = none) : Shape s g chain ref .null
  | truth {kind name b} : Shape s g chain (.named kind name) (.bool b)
  | number {kind name n} : Shape s g chain (.named kind name) (.number n)
  | text {kind name t} : Shape s g chain (.named kind name) (.string t)
  | list {inner item} (h : s.IsDrawn g chain inner item) :
      Shape s g chain (.list inner) (.array [item])
  | object {name t entries state after} (hn : name ∉ chain) (ht : s.typeNamed? name = some t)
      (hdraw : SampleValue.drawAll? g (s.sampleMembers (name :: chain) t.inputFields) state =
        some (entries, after)) :
      Shape s g chain (.named .inputObject name) (.object (Entries.merge entries))

theorem shape_ofScalar {chain : List String} {kind : TypeKind} {name scalar field : String}
    {state after : σ} {value : Json}
    (h : (SampleValue.ofScalar scalar field).draw? g state = some (value, after)) :
    s.Shape g chain (.named kind name) value := by
  unfold SampleValue.ofScalar at h
  split at h
  · rw [SampleValue.draw?] at h
    obtain ⟨rfl, -⟩ := Prod.mk.inj (Option.some.inj h)
    exact .truth
  · rw [SampleValue.draw?] at h
    obtain ⟨x, -, rfl⟩ := SampleValue.written_eq_some_iff.mp h
    exact .number
  · rw [SampleValue.draw?] at h
    obtain ⟨n, -, rfl⟩ := SampleValue.written_eq_some_iff.mp h
    exact .text
  · rw [SampleValue.draw?] at h
    obtain ⟨n, -, rfl⟩ := SampleValue.written_eq_some_iff.mp h
    exact .number
  all_goals
    rw [SampleValue.draw?] at h
    obtain ⟨rfl, -⟩ := Prod.mk.inj (Option.some.inj h)
    exact .text

theorem IsDrawn.shape {chain : List String} {ref : TypeRef} {value : Json}
    (h : s.IsDrawn g chain ref value) : s.Shape g chain ref.withoutNonNull value := by
  induction ref with
  | nonNull inner ih => exact ih (isDrawn_nonNull.mp h)
  | list inner =>
    obtain ⟨field, state, after, hdraw⟩ := h
    rw [sampleValue?, Option.getD_some] at hdraw
    obtain ⟨item, hitem, rfl⟩ := SampleValue.draw?_list_iff.mp hdraw
    exact .list ⟨field, state, after, hitem⟩
  | named kind name =>
    obtain ⟨field, state, after, hdraw⟩ := h
    cases hvalue : s.sampleValue? chain field (.named kind name) with
    | none =>
      rw [hvalue, Option.getD_none, SampleValue.draw?] at hdraw
      obtain ⟨rfl, -⟩ := Prod.mk.inj (Option.some.inj hdraw)
      exact .missing hvalue
    | some layout =>
      rw [hvalue, Option.getD_some] at hdraw
      cases kind with
      | scalar =>
        rw [sampleValue?] at hvalue
        obtain rfl := Option.some.inj hvalue
        exact shape_ofScalar hdraw
      | enumeration =>
        rw [sampleValue?] at hvalue
        obtain rfl := Option.some.inj hvalue
        rw [SampleValue.draw?] at hdraw
        obtain ⟨rfl, -⟩ := Prod.mk.inj (Option.some.inj hdraw)
        exact .text
      | inputObject =>
        obtain ⟨hn, t, ht, -, rfl⟩ := sampleValue?_inputObject_iff.mp hvalue
        obtain ⟨entries, hentries, rfl⟩ := SampleValue.draw?_object_iff.mp hdraw
        exact .object hn ht hentries
      | _ => simp [sampleValue?] at hvalue

variable {chain : List String} {ref : TypeRef} {value : Json}

/-- An array holds one item, drawn for what the list is a list of. -/
theorem IsDrawn.array {items : List Json} (h : s.IsDrawn g chain ref (.array items)) :
    ∃ inner item, ref.withoutNonNull = .list inner ∧ items = [item] ∧
      s.IsDrawn g chain inner item := by
  have hshape := h.shape
  generalize ref.withoutNonNull = r at hshape
  cases hshape with
  | list hitem => exact ⟨_, _, rfl, rfl, hitem⟩

/-- An object stands for an input type that it is not inside of, and has its members. -/
theorem IsDrawn.object {members : Json.Members} (h : s.IsDrawn g chain ref (.object members)) :
    ∃ name t entries state after, ref.withoutNonNull = .named .inputObject name ∧ name ∉ chain ∧
      s.typeNamed? name = some t ∧
      SampleValue.drawAll? g (s.sampleMembers (name :: chain) t.inputFields) state =
        some (entries, after) ∧ members = Entries.merge entries := by
  have hshape := h.shape
  generalize ref.withoutNonNull = r at hshape
  cases hshape with
  | object hn ht hdraw => exact ⟨_, _, _, _, _, rfl, hn, ht, hdraw, rfl⟩

variable {typeName : String} {root : TypeDef} {state : σ} {sample : Json.Members}

/-- Variables are drawn for the fields of their type that have a value. -/
theorem drawVariables?_eq_some_iff (hroot : s.typeNamed? typeName = some root) :
    s.drawVariables? g typeName state = some (.object sample) ↔
      ∃ entries after, SampleValue.drawAll? g
        (s.sampleMembers [root.name] (s.variableFields root)) state = some (entries, after) ∧
          sample = Entries.merge entries := by
  rw [drawVariables?, sampleVariables_eq hroot, Option.map_eq_some_iff]
  constructor
  · rintro ⟨⟨entries, after⟩, hdraw, hsample⟩
    exact ⟨entries, after, hdraw, (Json.object.inj hsample).symm⟩
  · rintro ⟨entries, after, hdraw, rfl⟩
    exact ⟨(entries, after), hdraw, rfl⟩

/-- What stands at a position was drawn for it. -/
theorem StandsAt.isDrawn (hroot : s.typeNamed? typeName = some root)
    (hsample : s.drawVariables? g typeName state = some (.object sample))
    (h : s.StandsAt root sample chain ref value) : s.IsDrawn g chain ref value := by
  induction h with
  | top hvalue hf =>
    obtain ⟨entries, after, hdraw, rfl⟩ := (drawVariables?_eq_some_iff hroot).mp hsample
    exact isDrawn_of_named? hdraw hvalue hf
  | item _ href hitem ih =>
    obtain ⟨inner, item, href', rfl, hdrawn⟩ := ih.array
    obtain rfl := TypeRef.list.inj (href.symm.trans href')
    exact List.mem_singleton.mp hitem ▸ hdrawn
  | member _ href ht hvalue hf ih =>
    obtain ⟨name, t', entries, state', after, href', -, ht', hdraw, rfl⟩ := ih.object
    obtain ⟨-, rfl⟩ := TypeRef.named.inj (href.symm.trans href')
    obtain rfl := Option.some.inj (ht.symm.trans ht')
    exact isDrawn_of_named? hdraw hvalue hf

/-- Every value inside sample variables stands at a position. -/
theorem exists_standsAt (hroot : s.typeNamed? typeName = some root)
    (hsample : s.drawVariables? g typeName state = some (.object sample))
    (h : Relation.TransGen Json.Holds (.object sample) value) :
    ∃ chain ref, s.StandsAt root sample chain ref value := by
  induction h with
  | single h =>
    cases h with
    | member h =>
      obtain ⟨entries, after, hdraw, rfl⟩ := (drawVariables?_eq_some_iff hroot).mp hsample
      obtain ⟨f, hf, -⟩ := exists_field_of_drawn hdraw h
      exact ⟨_, _, .top h hf⟩
  | tail _ h ih =>
    obtain ⟨chain, ref, hstands⟩ := ih
    have hdrawn := hstands.isDrawn hroot hsample
    cases h with
    | member h =>
      obtain ⟨name, t, entries, state', after, href, -, ht, hdraw, rfl⟩ := hdrawn.object
      obtain ⟨f, hf, -⟩ := exists_field_of_drawn hdraw h
      exact ⟨_, _, .member hstands href ht h hf⟩
    | item h =>
      obtain ⟨inner, item, href, -, -⟩ := hdrawn.array
      exact ⟨_, _, .item hstands href h⟩

end Schema

end QueryPicker
