import Mathlib
import QueryPicker.Proofs.EndedDraws
import QueryPicker.Proofs.SampledPositions

/-!
# Runs that sample variables

Sampling walks through references and input types and draws on the way. It keeps one chain of the
input types it is inside of, which grows before the fields of a type and shrinks after them. The
rules of the walk count nothing. Still every walk ends if every draw ends, because a type is entered
only if it is defined and not on the chain. The walk leaves the chain as it was, and comes to what
the layout of the variables comes to.
-/

namespace QueryPicker

variable {σ : Type}

mutual

/-- A walk at the type of a field, from a chain and a state to a chain and a state. -/
inductive Schema.Samples (s : Schema) (g : Random.Generator σ) :
    String → TypeRef → List String × σ → Option Json → List String × σ → Prop
  | list {field inner before value after} (h : Samples s g field inner before value after) :
      Samples s g field (.list inner) before (some (.array [value.getD .null])) after
  | nonNull {field inner before value after} (h : Samples s g field inner before value after) :
      Samples s g field (.nonNull inner) before value after
  | enumeration {field name before} : Samples s g field (.named .enumeration name) before
      (some (.string ((s.firstEnumValue? name).getD "UNKNOWN"))) before
  | scalar {field name before value state}
      (hdraw : (SampleValue.ofScalar name field).draw? g before.2 = some (value, state)) :
      Samples s g field (.named .scalar name) before (some value) (before.1, state)
  | cut {field name before} (hn : name ∈ before.1) :
      Samples s g field (.named .inputObject name) before none before
  | bare {field name before} (hn : name ∉ before.1)
      (ht : ∀ t, s.typeNamed? name = some t → t.inputFields = []) :
      Samples s g field (.named .inputObject name) before none before
  | object {field name t before members after} (hn : name ∉ before.1)
      (ht : s.typeNamed? name = some t) (hfields : t.inputFields ≠ [])
      (h : SamplesAll s g t.inputFields (name :: before.1, before.2) members after) :
      Samples s g field (.named .inputObject name) before
        (some (.object (Entries.merge (members.map fun m => (m.1, m.2.getD .null)))))
        (after.1.tail, after.2)
  | other {field kind name before} (hkind : kind ∉ [.enumeration, .inputObject, .scalar]) :
      Samples s g field (.named kind name) before none before

/-- A walk over fields, from the first to the last. -/
inductive Schema.SamplesAll (s : Schema) (g : Random.Generator σ) : List InputValue →
    List String × σ → List (String × Option Json) → List String × σ → Prop
  | nil {before} : SamplesAll s g [] before [] before
  | cons {f fields before value between members after}
      (h : Samples s g f.name f.type before value between)
      (hs : SamplesAll s g fields between members after) :
      SamplesAll s g (f :: fields) before ((f.name, value) :: members) after

end

namespace SampleValue

variable {g : Random.Generator σ}

/-- A scalar is drawn by at most one number. -/
theorem exists_draw?_ofScalar (hends : g.EveryDrawEnds) (scalar field : String) (state : σ) :
    ∃ value after, (ofScalar scalar field).draw? g state = some (value, after) := by
  unfold ofScalar
  split
  · rw [draw?]
    exact ⟨_, _, rfl⟩
  · rw [draw?]
    obtain ⟨x, after, hx⟩ := exists_fraction?_amountRange g (Text.lowercase field) state
    exact ⟨_, after, written_eq_some_iff.mpr ⟨x, hx, rfl⟩⟩
  · rw [draw?]
    obtain ⟨⟨n, after⟩, hn⟩ := Option.isSome_iff_exists.mp (hends 1 1000 (by decide) state).2
    exact ⟨_, after, written_eq_some_iff.mpr ⟨n, hn, rfl⟩⟩
  · rw [draw?]
    obtain ⟨⟨n, after⟩, hn⟩ :=
      Option.isSome_iff_exists.mp (hends _ _ (wholeRange_lt (Text.lowercase field)) state).1
    exact ⟨_, after, written_eq_some_iff.mpr ⟨n, hn, rfl⟩⟩
  all_goals
    rw [draw?]
    exact ⟨_, _, rfl⟩

end SampleValue

namespace Schema

variable {s : Schema} {g : Random.Generator σ}

/-- With every input type that is entered fewer defined types are left that are not on the chain. -/
theorem sampling_induction {P : List String → TypeRef → Prop}
    (list : ∀ chain inner, P chain inner → P chain (.list inner))
    (nonNull : ∀ chain inner, P chain inner → P chain (.nonNull inner))
    (named : ∀ chain kind name, (∀ t, s.typeNamed? name = some t → name ∉ chain →
      ∀ ref, P (name :: chain) ref) → P chain (.named kind name))
    (chain : List String) (ref : TypeRef) : P chain ref := by
  induction hleft : countUnused (s.types.map (·.1)) chain using Nat.strongRecOn
    generalizing chain ref with
  | ind left ih =>
    induction ref with
    | list inner ihref => exact list chain inner ihref
    | nonNull inner ihref => exact nonNull chain inner ihref
    | named kind name =>
      refine named chain kind name fun t ht hn ref => ih _ ?_ (name :: chain) ref rfl
      exact hleft ▸ countUnused_cons_lt (List.mem_map_of_mem (mem_types_of_typeNamed? ht)) hn

/-- The chain is the same after the fields of a type as it was before them. -/
theorem Samples.entered {chain : List String} {field name : String} {t : TypeDef} {state after : σ}
    {members : List (String × Option Json)} (hn : name ∉ chain) (ht : s.typeNamed? name = some t)
    (hfields : t.inputFields ≠ [])
    (h : s.SamplesAll g t.inputFields (name :: chain, state) members (name :: chain, after)) :
    s.Samples g field (.named .inputObject name) (chain, state)
      (some (.object (Entries.merge (members.map fun m => (m.1, m.2.getD .null)))))
      (chain, after) :=
  @Samples.object σ s g field name t (chain, state) members (name :: chain, after) hn ht hfields h

theorem exists_samplesAll {chain : List String}
    (h : ∀ ref field state, ∃ value after,
      s.Samples g field ref (chain, state) value (chain, after))
    (fields : List InputValue) (state : σ) :
    ∃ members after, s.SamplesAll g fields (chain, state) members (chain, after) := by
  induction fields generalizing state with
  | nil => exact ⟨[], state, .nil⟩
  | cons f fields ih =>
    obtain ⟨value, between, hfirst⟩ := h f.type f.name state
    obtain ⟨members, after, hrest⟩ := ih between
    exact ⟨_, after, .cons hfirst hrest⟩

/-- If every draw ends, so does every walk. -/
theorem exists_samples (hends : g.EveryDrawEnds) (chain : List String) (ref : TypeRef) :
    ∀ field state, ∃ value after, s.Samples g field ref (chain, state) value (chain, after) := by
  induction chain, ref using s.sampling_induction with
  | list chain inner ih =>
    intro field state
    obtain ⟨value, after, h⟩ := ih field state
    exact ⟨_, after, .list h⟩
  | nonNull chain inner ih =>
    intro field state
    obtain ⟨value, after, h⟩ := ih field state
    exact ⟨value, after, .nonNull h⟩
  | named chain kind name ih =>
    intro field state
    cases kind with
    | scalar =>
      obtain ⟨value, after, hdraw⟩ := SampleValue.exists_draw?_ofScalar hends name field state
      exact ⟨some value, after, .scalar hdraw⟩
    | enumeration => exact ⟨_, state, .enumeration⟩
    | inputObject =>
      by_cases hn : name ∈ chain
      · exact ⟨none, state, .cut hn⟩
      by_cases hbare : ∀ t, s.typeNamed? name = some t → t.inputFields = []
      · exact ⟨none, state, .bare hn hbare⟩
      · push Not at hbare
        obtain ⟨t, ht, hfields⟩ := hbare
        obtain ⟨members, after, h⟩ := exists_samplesAll (ih t ht hn) t.inputFields state
        exact ⟨_, after, .entered hn ht hfields h⟩
    | _ => exact ⟨none, state, .other (by decide)⟩

end Schema

namespace SampleValue

variable {g : Random.Generator σ}

/-- Draws a value if there is one. -/
def drawIfAny? (g : Random.Generator σ) : Option SampleValue → σ → Option (Option Json × σ)
  | none, state => some (none, state)
  | some v, state => (v.draw? g state).map (Prod.map some id)

def drawEach? (g : Random.Generator σ) :
    List (String × Option SampleValue) → σ → Option (List (String × Option Json) × σ)
  | [], state => some ([], state)
  | (name, v) :: vs, state => do
    let (value, state) ← drawIfAny? g v state
    let (members, state) ← drawEach? g vs state
    return ((name, value) :: members, state)

theorem drawIfAny?_some_iff {v : SampleValue} {value : Option Json} {state after : σ} :
    drawIfAny? g (some v) state = some (value, after) ↔
      ∃ drawn, v.draw? g state = some (drawn, after) ∧ value = some drawn := by
  rw [drawIfAny?, Option.map_eq_some_iff]
  constructor
  · rintro ⟨⟨drawn, _⟩, hdraw, heq⟩
    obtain ⟨rfl, rfl⟩ := Prod.mk.inj heq
    exact ⟨drawn, hdraw, rfl⟩
  · rintro ⟨drawn, hdraw, rfl⟩
    exact ⟨(drawn, after), hdraw, rfl⟩

theorem draw?_getD_iff {v : Option SampleValue} {drawn : Json} {state after : σ} :
    (v.getD .null).draw? g state = some (drawn, after) ↔
      ∃ value, drawIfAny? g v state = some (value, after) ∧ drawn = value.getD .null := by
  cases v with
  | none =>
    rw [Option.getD_none, draw?, drawIfAny?]
    constructor
    · intro h
      obtain ⟨rfl, rfl⟩ := Prod.mk.inj (Option.some.inj h)
      exact ⟨none, rfl, rfl⟩
    · rintro ⟨value, h, rfl⟩
      obtain ⟨rfl, rfl⟩ := Prod.mk.inj (Option.some.inj h)
      rfl
  | some v =>
    simp only [drawIfAny?_some_iff, Option.getD_some]
    constructor
    · exact fun h => ⟨some drawn, ⟨drawn, h, rfl⟩, rfl⟩
    · rintro ⟨_, ⟨drawn, h, rfl⟩, rfl⟩
      exact h

theorem drawEach?_cons_iff {name : String} {v : Option SampleValue}
    {vs : List (String × Option SampleValue)} {members : List (String × Option Json)}
    {state after : σ} :
    drawEach? g ((name, v) :: vs) state = some (members, after) ↔ ∃ value between rest,
      drawIfAny? g v state = some (value, between) ∧ drawEach? g vs between = some (rest, after) ∧
        members = (name, value) :: rest := by
  rw [drawEach?]
  exact drawn_cons_iff

theorem drawAll?_getD_iff {vs : List (String × Option SampleValue)} {entries : Json.Members}
    {state after : σ} :
    drawAll? g (vs.map fun v => (v.1, v.2.getD .null)) state = some (entries, after) ↔
      ∃ members, drawEach? g vs state = some (members, after) ∧
        entries = members.map fun m => (m.1, m.2.getD .null) := by
  induction vs generalizing state entries with
  | nil =>
    rw [List.map_nil, drawAll?, drawEach?]
    constructor
    · intro h
      obtain ⟨rfl, rfl⟩ := Prod.mk.inj (Option.some.inj h)
      exact ⟨[], rfl, rfl⟩
    · rintro ⟨members, h, rfl⟩
      obtain ⟨rfl, rfl⟩ := Prod.mk.inj (Option.some.inj h)
      rfl
  | cons v vs ih =>
    simp only [List.map_cons, drawAll?_cons_iff, draw?_getD_iff, ih]
    constructor
    · rintro ⟨_, between, _, ⟨value, hvalue, rfl⟩, ⟨members, hmembers, rfl⟩, rfl⟩
      exact ⟨_, drawEach?_cons_iff.mpr ⟨value, between, members, hvalue, hmembers, rfl⟩, rfl⟩
    · rintro ⟨_, h, rfl⟩
      obtain ⟨value, between, members, hvalue, hmembers, rfl⟩ := drawEach?_cons_iff.mp h
      exact ⟨_, between, _, ⟨value, hvalue, rfl⟩, ⟨members, hmembers, rfl⟩, rfl⟩

theorem drawAll?_filterMap_iff {vs : List (String × Option SampleValue)} {entries : Json.Members}
    {state after : σ} :
    drawAll? g (vs.filterMap fun v => v.2.map (v.1, ·)) state = some (entries, after) ↔
      ∃ members, drawEach? g vs state = some (members, after) ∧
        entries = members.filterMap fun m => m.2.map (m.1, ·) := by
  induction vs generalizing state entries with
  | nil =>
    rw [List.filterMap_nil, drawAll?, drawEach?]
    constructor
    · intro h
      obtain ⟨rfl, rfl⟩ := Prod.mk.inj (Option.some.inj h)
      exact ⟨[], rfl, rfl⟩
    · rintro ⟨members, h, rfl⟩
      obtain ⟨rfl, rfl⟩ := Prod.mk.inj (Option.some.inj h)
      rfl
  | cons v vs ih =>
    obtain ⟨name, v⟩ := v
    cases v with
    | none =>
      rw [List.filterMap_cons_none rfl, ih]
      constructor
      · rintro ⟨members, h, rfl⟩
        exact ⟨_, drawEach?_cons_iff.mpr ⟨none, state, members, rfl, h, rfl⟩, rfl⟩
      · rintro ⟨_, h, rfl⟩
        obtain ⟨value, between, members, hvalue, hmembers, rfl⟩ := drawEach?_cons_iff.mp h
        obtain ⟨rfl, rfl⟩ := Prod.mk.inj (Option.some.inj hvalue)
        exact ⟨members, hmembers, rfl⟩
    | some v =>
      have hcons : ((name, some v) :: vs).filterMap (fun v => v.2.map (v.1, ·)) =
          (name, v) :: vs.filterMap fun v => v.2.map (v.1, ·) := rfl
      rw [hcons, drawAll?_cons_iff]
      constructor
      · rintro ⟨drawn, between, _, hdraw, hrest, rfl⟩
        obtain ⟨members, hmembers, rfl⟩ := ih.mp hrest
        have hvalue := drawIfAny?_some_iff.mpr ⟨drawn, hdraw, rfl⟩
        exact ⟨_, drawEach?_cons_iff.mpr ⟨_, between, members, hvalue, hmembers, rfl⟩, rfl⟩
      · rintro ⟨_, h, rfl⟩
        obtain ⟨_, between, members, hvalue, hmembers, rfl⟩ := drawEach?_cons_iff.mp h
        obtain ⟨drawn, hdraw, rfl⟩ := drawIfAny?_some_iff.mp hvalue
        exact ⟨drawn, between, _, hdraw, ih.mpr ⟨members, hmembers, rfl⟩, rfl⟩

end SampleValue

namespace Schema

variable {s : Schema} {g : Random.Generator σ}

open SampleValue

/-- What is laid out for fields inside the types of a chain. -/
def layouts (s : Schema) (chain : List String) (fields : List InputValue) :
    List (String × Option SampleValue) :=
  fields.map fun f => (f.name, s.sampleValue? chain f.name f.type)

theorem layouts_cons (chain : List String) (f : InputValue) (fields : List InputValue) :
    s.layouts chain (f :: fields) =
      (f.name, s.sampleValue? chain f.name f.type) :: s.layouts chain fields := rfl

theorem sampleValue?_inputObject_eq_none {chain : List String} {name : String} (field : String)
    (h : ∀ t, s.typeNamed? name = some t → name ∉ chain → t.inputFields = []) :
    s.sampleValue? chain field (.named .inputObject name) = none := by
  rw [Option.eq_none_iff_forall_ne_some]
  intro v hv
  obtain ⟨hn, t, ht, hfields, -⟩ := sampleValue?_inputObject_iff.mp hv
  exact hfields (h t ht hn)

theorem sampleValue?_of_notMem {chain : List String} {kind : TypeKind} {name : String}
    (field : String) (h : kind ∉ [.enumeration, .inputObject, .scalar]) :
    s.sampleValue? chain field (.named kind name) = none := by
  cases kind with
  | enumeration => exact absurd (by decide) h
  | inputObject => exact absurd (by decide) h
  | scalar => exact absurd (by decide) h
  | _ => rw [sampleValue?] <;> simp

theorem sampleMembers_eq_layouts (chain : List String) (fields : List InputValue) :
    s.sampleMembers chain fields =
      (s.layouts chain fields).map fun v => (v.1, v.2.getD .null) := by
  rw [layouts, List.map_map, sampleMembers_eq]
  rfl

mutual

/-- What a walk comes to is laid out for its reference and its chain, and the chain is left as it
was. -/
theorem Samples.drawIfAny?_eq {field : String} {ref : TypeRef} {before after : List String × σ}
    {value : Option Json} (h : s.Samples g field ref before value after) :
    after.1 = before.1 ∧
      drawIfAny? g (s.sampleValue? before.1 field ref) before.2 = some (value, after.2) :=
  match h with
  | .list h => by
    obtain ⟨hchain, hdraw⟩ := h.drawIfAny?_eq
    refine ⟨hchain, ?_⟩
    rw [sampleValue?, drawIfAny?, draw?_list_iff.mpr ⟨_, draw?_getD_iff.mpr ⟨_, hdraw, rfl⟩, rfl⟩]
    rfl
  | .nonNull h => by
    rw [sampleValue?]
    exact h.drawIfAny?_eq
  | .enumeration => by
    rw [sampleValue?, drawIfAny?, draw?]
    exact ⟨rfl, rfl⟩
  | .scalar hdraw => by
    rw [sampleValue?, drawIfAny?, hdraw]
    exact ⟨rfl, rfl⟩
  | .cut hn => by
    rw [sampleValue?_inputObject_eq_none _ fun _ _ hnew => absurd hn hnew]
    exact ⟨rfl, rfl⟩
  | .bare hn ht => by
    rw [sampleValue?_inputObject_eq_none _ fun t hdefined _ => ht t hdefined]
    exact ⟨rfl, rfl⟩
  | .object hn ht hfields h => by
    obtain ⟨hchain, hdraw⟩ := h.drawEach?_eq
    refine ⟨by rw [hchain, List.tail_cons], ?_⟩
    rw [sampleValue?_inputObject_iff.mpr ⟨hn, _, ht, hfields, rfl⟩, drawIfAny?_some_iff]
    refine ⟨_, draw?_object_iff.mpr ⟨_, ?_, rfl⟩, rfl⟩
    rw [sampleMembers_eq_layouts]
    exact drawAll?_getD_iff.mpr ⟨_, hdraw, rfl⟩
  | .other hkind => by
    rw [sampleValue?_of_notMem _ hkind]
    exact ⟨rfl, rfl⟩

theorem SamplesAll.drawEach?_eq {fields : List InputValue} {before after : List String × σ}
    {members : List (String × Option Json)} (h : s.SamplesAll g fields before members after) :
    after.1 = before.1 ∧
      drawEach? g (s.layouts before.1 fields) before.2 = some (members, after.2) :=
  match h with
  | .nil => ⟨rfl, rfl⟩
  | .cons h hs => by
    obtain ⟨hchain, hdraw⟩ := h.drawIfAny?_eq
    obtain ⟨hchains, hdraws⟩ := hs.drawEach?_eq
    rw [hchain] at hchains hdraws
    refine ⟨hchains, ?_⟩
    rw [layouts_cons]
    exact drawEach?_cons_iff.mpr ⟨_, _, _, hdraw, hdraws, rfl⟩

end

theorem samplesAll_of_drawEach? {chain : List String}
    (h : ∀ ref field state value after,
      drawIfAny? g (s.sampleValue? chain field ref) state = some (value, after) →
        s.Samples g field ref (chain, state) value (chain, after))
    {fields : List InputValue} {state after : σ} {members : List (String × Option Json)}
    (hdraw : drawEach? g (s.layouts chain fields) state = some (members, after)) :
    s.SamplesAll g fields (chain, state) members (chain, after) := by
  induction fields generalizing state members with
  | nil =>
    obtain ⟨rfl, rfl⟩ := Prod.mk.inj (Option.some.inj hdraw)
    exact .nil
  | cons f fields ih =>
    rw [layouts_cons] at hdraw
    obtain ⟨value, between, rest, hvalue, hrest, rfl⟩ := drawEach?_cons_iff.mp hdraw
    exact .cons (h _ _ _ _ _ hvalue) (ih hrest)

/-- If the draws from a layout end, so does the walk. -/
theorem samples_of_drawIfAny? (chain : List String) (ref : TypeRef) :
    ∀ field state value after,
      drawIfAny? g (s.sampleValue? chain field ref) state = some (value, after) →
        s.Samples g field ref (chain, state) value (chain, after) := by
  induction chain, ref using s.sampling_induction with
  | list chain inner ih =>
    intro field state value after h
    rw [sampleValue?, drawIfAny?_some_iff] at h
    obtain ⟨_, hlist, rfl⟩ := h
    obtain ⟨_, hitem, rfl⟩ := draw?_list_iff.mp hlist
    obtain ⟨value, hvalue, rfl⟩ := draw?_getD_iff.mp hitem
    exact .list (ih field state value after hvalue)
  | nonNull chain inner ih =>
    intro field state value after h
    rw [sampleValue?] at h
    exact .nonNull (ih field state value after h)
  | named chain kind name ih =>
    intro field state value after h
    cases kind with
    | scalar =>
      rw [sampleValue?, drawIfAny?_some_iff] at h
      obtain ⟨drawn, hdraw, rfl⟩ := h
      exact .scalar hdraw
    | enumeration =>
      rw [sampleValue?, drawIfAny?, draw?] at h
      obtain ⟨rfl, rfl⟩ := Prod.mk.inj (Option.some.inj h)
      exact .enumeration
    | inputObject =>
      by_cases hn : name ∈ chain
      · rw [sampleValue?_inputObject_eq_none _ fun _ _ hnew => absurd hn hnew] at h
        obtain ⟨rfl, rfl⟩ := Prod.mk.inj (Option.some.inj h)
        exact .cut hn
      by_cases hbare : ∀ t, s.typeNamed? name = some t → t.inputFields = []
      · rw [sampleValue?_inputObject_eq_none _ fun t ht _ => hbare t ht] at h
        obtain ⟨rfl, rfl⟩ := Prod.mk.inj (Option.some.inj h)
        exact .bare hn hbare
      · push Not at hbare
        obtain ⟨t, ht, hfields⟩ := hbare
        rw [sampleValue?_inputObject_iff.mpr ⟨hn, t, ht, hfields, rfl⟩, drawIfAny?_some_iff] at h
        obtain ⟨_, hobject, rfl⟩ := h
        obtain ⟨entries, hentries, rfl⟩ := draw?_object_iff.mp hobject
        rw [sampleMembers_eq_layouts] at hentries
        obtain ⟨members, hmembers, rfl⟩ := drawAll?_getD_iff.mp hentries
        exact .entered hn ht hfields (samplesAll_of_drawEach? (ih t ht hn) hmembers)
    | _ =>
      rw [sampleValue?_of_notMem _ (by decide)] at h
      obtain ⟨rfl, rfl⟩ := Prod.mk.inj (Option.some.inj h)
      exact .other (by decide)

/-- Variables that a walk over the fields of an input type comes to. Fields without a value are left
out of them. -/
def SamplesVariables (s : Schema) (g : Random.Generator σ) (root : TypeDef) (state : σ)
    (sample : Json.Members) : Prop :=
  ∃ members after, s.SamplesAll g root.inputFields ([root.name], state) members after ∧
    sample = Entries.merge (members.filterMap fun m => m.2.map (m.1, ·))

/-- The walk comes to the variables that are laid out and drawn, and to no others. -/
theorem samplesVariables_iff {typeName : String} {root : TypeDef}
    (hroot : s.typeNamed? typeName = some root) (state : σ) (sample : Json.Members) :
    s.SamplesVariables g root state sample ↔
      s.drawVariables? g typeName state = some (.object sample) := by
  have hlayouts : s.sampleVariables typeName =
      (s.layouts [root.name] root.inputFields).filterMap fun v => v.2.map (v.1, ·) := by
    simp only [sampleVariables, hroot, layouts, List.filterMap_map]
    rfl
  rw [drawVariables?, hlayouts, Option.map_eq_some_iff]
  constructor
  · rintro ⟨members, after, hwalk, rfl⟩
    exact ⟨(_, after.2), drawAll?_filterMap_iff.mpr ⟨members, hwalk.drawEach?_eq.2, rfl⟩, rfl⟩
  · rintro ⟨⟨entries, after⟩, hdraw, heq⟩
    obtain ⟨members, hmembers, rfl⟩ := drawAll?_filterMap_iff.mp hdraw
    exact ⟨members, _, samplesAll_of_drawEach? (samples_of_drawIfAny? [root.name]) hmembers,
      (Json.object.inj heq).symm⟩

theorem exists_drawVariables? (hends : g.EveryDrawEnds) {typeName : String} {root : TypeDef}
    (hroot : s.typeNamed? typeName = some root) (state : σ) :
    ∃ sample, s.drawVariables? g typeName state = some (.object sample) := by
  obtain ⟨members, after, h⟩ :=
    exists_samplesAll (exists_samples hends [root.name]) root.inputFields state
  exact ⟨_, (samplesVariables_iff hroot state _).mp ⟨members, _, h, rfl⟩⟩

end Schema

namespace Json

mutual

/-- How many objects are nested in one another. -/
def objectDepth : Json → Nat
  | .array items => objectDepthOfItems items
  | .object members => objectDepthOfMembers members + 1
  | _ => 0

def objectDepthOfItems : List Json → Nat
  | [] => 0
  | item :: items => max (objectDepth item) (objectDepthOfItems items)

def objectDepthOfMembers : List (String × Json) → Nat
  | [] => 0
  | (_, value) :: members => max (objectDepth value) (objectDepthOfMembers members)

end

theorem objectDepthOfMembers_le_iff {members : Members} {n : Nat} :
    objectDepthOfMembers members ≤ n ↔ ∀ m ∈ members, m.2.objectDepth ≤ n := by
  induction members with
  | nil => simp [objectDepthOfMembers]
  | cons m members ih => simp [objectDepthOfMembers, ih]

end Json

namespace Schema

variable {s : Schema} {g : Random.Generator σ}

/-- An object has the members of an input type that is defined and not on the chain, so there can
only be as many objects in one another as there are such types. -/
theorem IsDrawn.objectDepth_le {chain : List String} {ref : TypeRef} {value : Json}
    (h : s.IsDrawn g chain ref value) :
    value.objectDepth ≤ countUnused (s.types.map (·.1)) chain := by
  induction hsize : sizeOf value using Nat.strongRecOn generalizing chain ref value with
  | ind size ih =>
    subst hsize
    match value with
    | .array items =>
      obtain ⟨inner, item, -, rfl, hitem⟩ := h.array
      have hsmaller : sizeOf item < sizeOf (Json.array [item]) := by
        simp only [Json.array.sizeOf_spec, List.cons.sizeOf_spec]
        omega
      have hle := ih _ hsmaller hitem rfl
      simpa [Json.objectDepth, Json.objectDepthOfItems] using hle
    | .object members =>
      obtain ⟨name, t, entries, state, after, -, hn, ht, hdraw, rfl⟩ := h.object
      have hinner : Json.objectDepthOfMembers (Entries.merge entries) ≤
          countUnused (s.types.map (·.1)) (name :: chain) := by
        rw [Json.objectDepthOfMembers_le_iff]
        rintro ⟨key, v⟩ hm
        obtain ⟨f, -, hdrawn⟩ := exists_field_of_drawn hdraw hm
        have hsmaller : sizeOf v < sizeOf (Json.object (Entries.merge entries)) := by
          have hmember := List.sizeOf_lt_of_mem hm
          simp only [Prod.mk.sizeOf_spec] at hmember
          simp only [Json.object.sizeOf_spec]
          omega
        exact ih _ hsmaller hdrawn rfl
      have hdefined : name ∈ s.types.map (·.1) :=
        List.mem_map_of_mem (mem_types_of_typeNamed? ht)
      have hless := countUnused_cons_lt hdefined hn
      rw [Json.objectDepth]
      omega
    | .null | .bool _ | .number _ | .string _ => exact Nat.zero_le _

variable {typeName : String} {root : TypeDef} {state : σ} {sample : Json.Members}

theorem objectDepth_le_of_drawVariables? (hroot : s.typeNamed? typeName = some root)
    (hname : root.name = typeName)
    (hsample : s.drawVariables? g typeName state = some (.object sample)) :
    (Json.object sample).objectDepth ≤ s.types.length := by
  have hmembers : Json.objectDepthOfMembers sample ≤
      countUnused (s.types.map (·.1)) [root.name] := by
    rw [Json.objectDepthOfMembers_le_iff]
    obtain ⟨entries, after, hdraw, rfl⟩ := (drawVariables?_eq_some_iff hroot).mp hsample
    intro m hm
    obtain ⟨f, -, hdrawn⟩ := exists_field_of_drawn hdraw hm
    exact hdrawn.objectDepth_le
  have hdefined : root.name ∈ s.types.map (·.1) :=
    hname ▸ List.mem_map_of_mem (mem_types_of_typeNamed? hroot)
  have hless := countUnused_cons_lt hdefined List.not_mem_nil
  have hall : countUnused (s.types.map (·.1)) [] ≤ s.types.length :=
    List.countP_le_length.trans_eq (List.length_map _)
  rw [Json.objectDepth]
  omega

/-- No input type is on the chain twice. -/
theorem StandsAt.nodup_chain {chain : List String} {ref : TypeRef} {value : Json}
    (hroot : s.typeNamed? typeName = some root)
    (hsample : s.drawVariables? g typeName state = some (.object sample))
    (h : s.StandsAt root sample chain ref value) : chain.Nodup := by
  induction h with
  | top => exact List.nodup_singleton _
  | item _ _ _ ih => exact ih
  | member h href _ _ _ ih =>
    obtain ⟨name, t, entries, state', after, href', hn, -⟩ := (h.isDrawn hroot hsample).object
    obtain ⟨-, rfl⟩ := TypeRef.named.inj (href.symm.trans href')
    exact List.nodup_cons.mpr ⟨hn, ih⟩

theorem map_fst_drawn_members {chain : List String} {fields : List InputValue}
    {entries : Json.Members} {state after : σ}
    (h : SampleValue.drawAll? g (s.sampleMembers chain fields) state = some (entries, after)) :
    entries.map (·.1) = fields.map (·.name) := by
  have hfields := drawn_fields h
  clear h
  induction hfields with
  | nil => rfl
  | cons hfe _ ih => rw [List.map_cons, List.map_cons, ih, hfe.1]

/-- An object has one member for each name of a field, in the order of the fields. -/
theorem StandsAt.object_complete {chain : List String} {ref : TypeRef} {members : Json.Members}
    (hroot : s.typeNamed? typeName = some root)
    (hsample : s.drawVariables? g typeName state = some (.object sample))
    (h : s.StandsAt root sample chain ref (.object members)) :
    ∃ name t, ref.withoutNonNull = .named .inputObject name ∧ s.typeNamed? name = some t ∧
      members.map (·.1) = (t.inputFields.map (·.name)).eraseDups ∧ (name :: chain).Nodup := by
  obtain ⟨name, t, entries, state', after, href, hn, ht, hdraw, rfl⟩ :=
    (h.isDrawn hroot hsample).object
  refine ⟨name, t, href, ht, ?_, List.nodup_cons.mpr ⟨hn, h.nodup_chain hroot hsample⟩⟩
  rw [Entries.map_fst_merge, map_fst_drawn_members hdraw]

/-- A schema that is built from types looks them up by their own names. -/
theorem name_of_typeNamed?_ofTypes {types : List TypeDef} {queryType : String}
    {mutationType subscriptionType : Option String}
    (h : (ofTypes types queryType mutationType subscriptionType).typeNamed? typeName = some root) :
    root.name = typeName := by
  have hmem := (firstByName_sublist _).subset (mem_types_of_typeNamed? h)
  obtain ⟨t, -, heq⟩ := List.mem_map.mp hmem
  obtain ⟨rfl, rfl⟩ := Prod.mk.inj heq
  rfl

/-- However the input types of a schema refer to one another, sampling the variables of one of them
ends if every draw does. What it comes to are the variables that are laid out and drawn, in objects
that are complete and none of which is inside another of its type. -/
theorem sampling_ends_in_complete_objects (types : List TypeDef) (queryType : String)
    (mutationType subscriptionType : Option String) (g : Random.Generator σ) (typeName : String)
    (root : TypeDef)
    (hroot : (ofTypes types queryType mutationType subscriptionType).typeNamed? typeName =
      some root) (state : σ) :
    let s := ofTypes types queryType mutationType subscriptionType
    (g.EveryDrawEnds → ∃ sample, s.drawVariables? g typeName state = some (.object sample)) ∧
      ∀ sample, s.drawVariables? g typeName state = some (.object sample) →
        (∀ other, s.SamplesVariables g root state other ↔ other = sample) ∧
        (Json.object sample).objectDepth ≤ s.types.length ∧
        (∀ value, Relation.TransGen Json.Holds (.object sample) value →
          ∃ chain ref, s.StandsAt root sample chain ref value) ∧
        ∀ chain ref members, s.StandsAt root sample chain ref (.object members) →
          ∃ name t, ref.withoutNonNull = .named .inputObject name ∧ s.typeNamed? name = some t ∧
            members.map (·.1) = (t.inputFields.map (·.name)).eraseDups ∧
            (name :: chain).Nodup := by
  intro s
  refine ⟨fun hends => exists_drawVariables? hends hroot state, fun sample hsample => ?_⟩
  have hname : root.name = typeName := name_of_typeNamed?_ofTypes hroot
  have hwalks : ∀ other, s.SamplesVariables g root state other ↔ other = sample := by
    intro other
    rw [samplesVariables_iff hroot, hsample, Option.some.injEq, Json.object.injEq]
    exact eq_comm
  exact ⟨hwalks, objectDepth_le_of_drawVariables? hroot hname hsample,
    fun value h => exists_standsAt hroot hsample h,
    fun chain ref members h => h.object_complete hroot hsample⟩

/-- Owners with pets, and pets with owners. -/
def ownerType : TypeDef :=
  .inputObject "Owner"
    [{ name := "name", type := .nonNull (.named .scalar "String") },
      { name := "pets", type := .list (.nonNull (.named .inputObject "Pet")) },
      { name := "partner", type := .named .inputObject "Owner" }]

def petType : TypeDef :=
  .inputObject "Pet"
    [{ name := "age", type := .named .scalar "Int" },
      { name := "owner", type := .nonNull (.named .inputObject "Owner") },
      { name := "age", type := .nonNull (.named .scalar "Int") }]

/-- From words that count up from seven. -/
theorem sampling_ends_owner :
    let s := ofTypes [ownerType, petType] "Query" none none
    Random.Generator.counting.EveryDrawEnds ∧ s.typeNamed? "Owner" = some ownerType ∧
      ∃ sample, s.drawVariables? Random.Generator.counting "Owner" 7 = some (.object sample) ∧
        s.SamplesVariables Random.Generator.counting ownerType 7 sample ∧
        (Json.object sample).objectDepth ≤ 2 := by
  intro s
  obtain ⟨hexists, hcomplete⟩ := sampling_ends_in_complete_objects [ownerType, petType] "Query"
    none none Random.Generator.counting "Owner" ownerType rfl 7
  obtain ⟨sample, hsample⟩ := hexists Random.everyDrawEnds_counting
  obtain ⟨hwalks, hdepth, -⟩ := hcomplete sample hsample
  exact ⟨Random.everyDrawEnds_counting, rfl, sample, hsample, (hwalks sample).mpr rfl, hdepth⟩

end Schema

end QueryPicker
