import Mathlib
import QueryPicker.Proofs.ReachedPickers

/-!
# Stored fields and the schema

Paths get into the selection by clicks, from the nodes of the tree, and by texts, from names that
are looked up in the schema. On both ways a path comes with the field that the schema resolves it
to.
-/

namespace QueryPicker

namespace Schema

variable {s : Schema}

/-- Names from which others lead on end at a field of object type. -/
theorem exists_object_of_selects {t : TypeDef} {names more : List String} (hne : names ≠ [])
    (hmore : more ≠ []) (h : s.Selects t (names ++ more)) :
    ∃ f inner, s.resolveFrom? t names = some f ∧ s.objectOf? f = some inner := by
  induction names generalizing t with
  | nil => exact absurd rfl hne
  | cons name names ih =>
    obtain ⟨f, hf, hrest⟩ := h
    obtain ⟨inner, hinner, hselects⟩ :=
      hrest.resolve_left (List.append_ne_nil_of_right_ne_nil names hmore)
    cases names with
    | nil => exact ⟨f, inner, hf, hinner⟩
    | cons next names =>
      obtain ⟨g, innermost, hg, hinnermost⟩ := ih (List.cons_ne_nil _ _) hselects
      have htype : s.typeNamed? f.type.innerName = some inner :=
        (Option.filter_eq_some_iff.mp hinner).1
      refine ⟨g, innermost, ?_, hinnermost⟩
      rw [resolveFrom?, hf]
      · simpa [htype] using hg
      · exact fun heq => List.cons_ne_nil _ _ heq

/-- On the way to a path that can be selected, every field has an object type. -/
theorem exists_object_of_start {p q : FieldPath} (h : s.Selectable p) (hstart : q <+: p)
    (hne : q ≠ p) (hlength : 2 ≤ q.length) : ∃ f inner, s.resolve? q = some f ∧
      s.typeNamed? f.type.innerName = some inner ∧ inner.kind = .object := by
  obtain ⟨op, root, names, hroot, rfl, hselects⟩ := h
  obtain ⟨more, hmore⟩ := hstart
  cases q with
  | nil => simp at hlength
  | cons marker start =>
    obtain ⟨rfl, rfl⟩ := List.cons.inj hmore
    have hstart : start ≠ [] := by
      rintro rfl
      simp at hlength
    have hrest : more ≠ [] := by
      rintro rfl
      exact hne (congrArg (op.marker :: ·) (List.append_nil start).symm)
    obtain ⟨f, inner, hf, hinner⟩ := exists_object_of_selects hstart hrest hselects
    obtain ⟨htype, hkind⟩ := Option.filter_eq_some_iff.mp hinner
    exact ⟨f, inner, (resolve?_marker hroot start).trans hf, htype, by simpa using hkind⟩

end Schema

namespace TreeBounds

variable {b : TreeBounds} {chain : List String} {n m : TreeNode}

/-- The field of a node is the one that its names lead to in the schema. -/
theorem resolveFrom?_of_follow? {names : List String} {t : TypeDef} (h : Grown b chain n)
    (htype : ∀ name, n.info.objectType? = some name → b.schema.typeNamed? name = some t)
    (hne : names ≠ []) (hfollow : n.follow? names = some m) :
    ∃ f, m.info.field? = some f ∧ b.schema.resolveFrom? t names = some f := by
  induction names generalizing chain n t with
  | nil => exact absurd rfl hne
  | cons name names ih =>
    obtain ⟨info, children⟩ := n
    obtain ⟨c, hchild, hrest⟩ := Option.bind_eq_some_iff.mp hfollow
    have hc : c ∈ children := List.mem_of_find?_eq_some hchild
    obtain ⟨typeName, t', hobject, hnamed, hfields⟩ := exists_type_of_mem h hc
    obtain rfl : t = t' := Option.some.inj ((htype typeName hobject).symm.trans hnamed)
    rcases childNamed?_cases (shape_of_mem h hc) name with
      ⟨hnone, -⟩ | ⟨c', f, hcf, -, hchild', hf⟩
    · rw [hnone] at hchild
      cases hchild
    · obtain rfl : c' = c := by simpa [hchild'] using hchild
      obtain ⟨-, -, hfield, hentered⟩ := NodeInfo.eq_of_blank hcf
      rw [hfields] at hf
      have hf : t.field? name = some f := hf
      cases names with
      | nil =>
        obtain rfl : c' = m := by simpa [TreeNode.follow?] using hrest
        exact ⟨f, hfield, hf⟩
      | cons next names =>
        obtain ⟨childInfo, grandchildren⟩ := c'
        have hgrown := grown_of_mem h _ hc
        obtain ⟨d, hd, -⟩ := Option.bind_eq_some_iff.mp hrest
        obtain ⟨innerName, inner, hinner, hinnerType, -⟩ :=
          exists_type_of_mem hgrown (List.mem_of_find?_eq_some hd)
        have hname : innerName = f.type.innerName :=
          eq_innerName_of_childShape (hentered.symm.trans hinner)
        subst hname
        have hbelow : ∀ name, childInfo.objectType? = some name →
            b.schema.typeNamed? name = some inner := by
          intro name hname
          obtain rfl : f.type.innerName = name := Option.some.inj (hinner.symm.trans hname)
          exact hinnerType
        obtain ⟨g, hg, hresolve⟩ := ih hgrown hbelow (List.cons_ne_nil _ _) hrest
        refine ⟨g, hg, ?_⟩
        rw [Schema.resolveFrom?, hf]
        · simpa [hinnerType] using hresolve
        · exact fun heq => List.cons_ne_nil _ _ heq

end TreeBounds

namespace SelectionTree

open TreeBounds

variable {t t' : SelectionTree} {m : SelectionMap} {s : CheckState} {target : FieldPath}
  {changed : List NodeInfo}

/-- The schema resolves the path of a node to the field of the node. -/
theorem IsGrown.resolve?_of_mem (h : t.IsGrown) (hdistinct : t.bounds.schema.DistinctFields)
    {x : NodeInfo} (hx : x ∈ t.nodes) {f : Field} (hf : x.field? = some f) :
    t.bounds.schema.resolve? x.path = some f := by
  obtain ⟨-, -, hlength⟩ := h.node_spec hdistinct hx
  have hlength : 2 ≤ x.path.length := hlength.mp (by rw [hf]; rfl)
  obtain ⟨r, hr, hx⟩ := mem_nodes.mp hx
  obtain ⟨names, n, hfollow, rfl⟩ := follow?_of_mem hdistinct (h.grown r hr) hx
  obtain ⟨op, hshape, hpath⟩ := h.root_of_mem hr
  obtain ⟨name, root, hname, hroot, hblank⟩ := rootShape?_eq_some hshape
  have hn : n.info.path = op.marker :: names := by
    have hn := (follow?_spec (h.grown r hr) hfollow).2.1
    rwa [hpath] at hn
  have hne : names ≠ [] := by
    rintro rfl
    rw [hn] at hlength
    simp at hlength
  have htype : ∀ typeName, r.info.objectType? = some typeName →
      t.bounds.schema.typeNamed? typeName = some root := by
    intro typeName htypeName
    have hobject : r.info.objectType? = if root.fields.isEmpty then none else some name :=
      congrArg NodeInfo.objectType? hblank
    rw [hobject] at htypeName
    split at htypeName
    · cases htypeName
    · cases htypeName
      exact hroot
  have hrootType : t.bounds.schema.rootType? op = some root := by
    rw [Schema.rootType?, hname]
    exact hroot
  obtain ⟨g, hg, hresolve⟩ := resolveFrom?_of_follow? (h.grown r hr) htype hne hfollow
  obtain rfl : g = f := Option.some.inj (hg.symm.trans hf)
  rw [hn, Schema.resolve?_marker hrootType]
  exact hresolve

end SelectionTree

/-- The stored field is the one that the schema resolves the path to. -/
def Resolves (schema : Schema) (x : SelectedField) : Prop := schema.resolve? x.path = some x.field

section Batches

variable {t t' : SelectionTree} {m : SelectionMap} {s : CheckState} {target : FieldPath}
  {changed : List NodeInfo}

theorem resolves_click (hdistinct : t.bounds.schema.DistinctFields)
    (hm : ∀ x ∈ m.entries, Resolves t.bounds.schema x)
    (hsets : SelectionTree.SetsMarkAt s t target t' changed) (id : Nat) :
    Batch.Keeps m (Resolves t.bounds.schema) ((Batch.start m).follow ⟨id, target, s, changed⟩) := by
  apply Batch.keeps_follow (Batch.keeps_start hm)
  intro x hx f hf
  have hdistinct' : t'.bounds.schema.DistinctFields := hsets.bounds ▸ hdistinct
  have hresolve := hsets.grown.resolve?_of_mem hdistinct' (hsets.reported x hx) hf
  rwa [hsets.bounds] at hresolve

/-- Whatever was selected before, a text leaves fields that the schema resolves to. -/
theorem resolves_text (hgrown : t.IsGrown) (hdistinct : t.bounds.schema.DistinctFields)
    (ps : List FieldPath) : Batch.Keeps m (Resolves t.bounds.schema)
      ((Batch.start m).restate t.bounds.schema ps t.checkedNodes) := by
  apply Batch.keeps_restate (Batch.keeps_start (P := fun _ => True) fun _ _ => trivial)
  · exact fun p _ f hf => hf
  · intro x hx f hf
    exact hgrown.resolve?_of_mem hdistinct (List.mem_filter.mp hx).1 hf

end Batches

namespace Picker

/-- Every stored field is the one that the schema resolves its path to. -/
def IsResolved (p : Picker) : Prop := ∀ x ∈ p.selections.entries, Resolves p.schema x

variable {ok : Schema → Prop} {p p' : Picker} (hok : ∀ s, ok s → s.DistinctFields)

theorem isResolved_grow (h : p.IsResolved) {t : SelectionTree} (hext : p.tree.Extends t) :
    IsResolved ⟨t, p.session⟩ := by
  have hschema : Picker.schema ⟨t, p.session⟩ = p.schema := congrArg TreeBounds.schema hext.bounds
  intro x hx
  rw [hschema]
  exact h x hx

include hok

theorem isResolved_apply (hagrees : Agrees ok p) (h : p.IsResolved) {id : Nat} {s : CheckState}
    {t : SelectionTree} {changed : List NodeInfo} (happly : p.tree.apply id s = .ok (t, changed)) :
    IsResolved (p.afterClick t (t.notify id s changed)) := by
  have hdistinct : p.tree.bounds.schema.DistinctFields := hok _ hagrees.schema
  obtain ⟨target, -, hsets, hnotify⟩ :=
    SelectionTree.setsMarkAt_apply hagrees.grown hdistinct happly
  obtain ⟨l, hl⟩ := hagrees.listener
  have hschema : t.bounds.schema = p.schema := congrArg TreeBounds.schema hsets.bounds
  rw [hnotify]
  by_cases hnil : changed = []
  · subst hnil
    intro x hx
    show Resolves t.bounds.schema x
    rw [hschema]
    exact h x hx
  · rw [if_neg (by simpa using hnil), hl, List.map_cons, List.map_nil]
    have hkeeps := resolves_click hdistinct h hsets id
    obtain ⟨hselections, -, -⟩ := shows_followChange hagrees.rest hkeeps
    show ∀ x ∈ (followChange p.session _).current.selections.entries, Resolves t.bounds.schema x
    rw [hselections, hschema]
    exact hkeeps.all

theorem isResolved_moved (hagrees : Agrees ok p) (h : p.IsResolved) (hmoved : p.Moved p') :
    p'.IsResolved := by
  cases hmoved with
  | grown hext => exact isResolved_grow h hext
  | clicked hext happly =>
    exact isResolved_apply hok (agrees_grow hagrees hext) (isResolved_grow h hext) happly

/-- A text that cannot be read leaves the selection, and any other leaves fields of the schema. -/
theorem isResolved_readText (hagrees : Agrees ok p) (h : p.IsResolved) :
    p.readText.1.IsResolved := by
  have hfree : p.display.fromClicks.isHeld = false := not_isHeld_of_free hagrees.rest.fromClicks
  rw [readText, hfree, if_neg Bool.false_ne_true]
  cases hpaths : QueryText.paths p.schema p.surface.text with
  | error e => exact h
  | ok ps =>
    obtain ⟨hbounds, -, hgrown, -⟩ := restatedTree_spec hok hagrees ps
    have hschema : (restatedTree p.tree ps).bounds.schema = p.schema :=
      congrArg TreeBounds.schema hbounds
    have hkeeps := resolves_text (m := p.selections) hgrown (hschema ▸ hok _ hagrees.schema) ps
    rw [hschema] at hkeeps
    obtain ⟨hselections, -, -⟩ := outside_change
      (s := (p.withDisplay fun d => { d with fromText := d.fromText.acquire }).session)
      hagrees.rest.listeners (Hold.isHeld_acquire _) hkeeps
    intro x hx
    show Resolves (restatedTree p.tree ps).bounds.schema x
    rw [hschema]
    exact hkeeps.all x (hselections ▸ hx)

omit hok in
theorem isResolved_replaceSchema (hagrees : Agrees ok p) (schema : Schema) :
    (p.replaceSchema schema).IsResolved := by
  rw [IsResolved, (selections_replaceSchema hagrees.rest schema).1]
  simp [SelectionMap.empty]

theorem isResolved_perform (hagrees : Agrees ok p) (h : p.IsResolved) {step : Step}
    (hown : step.IsOwn ok) : (p.perform step).picker.IsResolved := by
  by_cases hmove : step.isMove = true
  · exact isResolved_moved hok hagrees h (moved_perform hagrees.grown hmove)
  cases step with
  | toggle | set | setPath | expand | expandPath | expandToDepth => exact absurd rfl hmove
  | readText => exact isResolved_readText hok hagrees h
  | setText | setTextSilently => exact h
  | edit text => exact isResolved_readText hok (agrees_withSurface hagrees _) h
  | replaceSchema schema => exact isResolved_replaceSchema hagrees schema
  | select | session => exact hown.elim

theorem isResolved_run (hagrees : Agrees ok p) (h : p.IsResolved) {steps : List Step}
    (hsteps : ∀ step ∈ steps, step.IsOwn ok) : (p.run steps).IsResolved := by
  induction steps generalizing p with
  | nil => exact h
  | cons step steps ih =>
    have hown := hsteps step List.mem_cons_self
    exact ih (agrees_perform hok hagrees hown).1 (isResolved_perform hok hagrees h hown)
      fun step' hstep' => hsteps step' (List.mem_cons_of_mem step hstep')

omit hok

/-- Whatever a picker has stored has a path of at least two parts, all fields on the way to it have
object types, and its path resolves to it in the schema that the picker has now. -/
theorem stored_resolves {schema : Schema} (hschema : schema.DistinctFields) (maxDepth : Nat)
    (surface : TextSurface) {steps : List Step}
    (hsteps : ∀ step ∈ steps, step.IsOwn Schema.DistinctFields) {x : SelectedField}
    (hx : x ∈ ((start schema maxDepth surface).run steps).selections.entries) :
    let p := (start schema maxDepth surface).run steps
    2 ≤ x.path.length ∧
      (∀ q, q <+: x.path → q ≠ x.path → 2 ≤ q.length → ∃ f inner, p.schema.resolve? q = some f ∧
        p.schema.typeNamed? f.type.innerName = some inner ∧ inner.kind = .object) ∧
      p.schema.resolve? x.path = some x.field := by
  have hok : ∀ s : Schema, s.DistinctFields → s.DistinctFields := fun _ hs => hs
  have hstart := agrees_start hschema maxDepth surface
  have hagrees := agrees_run hok hstart hsteps
  have hempty : (start schema maxDepth surface).IsResolved := fun x hx => by cases hx
  have hstored := hagrees.stored x hx
  refine ⟨hstored.length, fun q hstart hne hlength => ?_, ?_⟩
  · exact Schema.exists_object_of_start hstored.selectable hstart hne hlength
  · exact isResolved_run hok hstart hempty hsteps x hx

/-- The name of a friend, which only a text can select. -/
theorem stored_resolves_friend_name :
    let p := (start SelectionMap.friends 5 (.showing "")).run [.edit friendNameText]
    ∃ x ∈ p.selections.entries, x.path = ["Query", "user", "friend", "name"] ∧
      p.schema.resolve? ["Query", "user", "friend", "name"] = some x.field ∧
      ∃ f inner, p.schema.resolve? ["Query", "user", "friend"] = some f ∧
        p.schema.typeNamed? f.type.innerName = some inner ∧ inner.kind = .object := by
  intro p
  have hagrees : Agrees Schema.DistinctFields
      ((start SelectionMap.friends 5 (.showing "")).setText friendNameText).1 :=
    agrees_withSurface (agrees_start wellNamed_friends.distinct 5 _) _
  obtain ⟨-, -, -, hselected⟩ := agrees_restate (fun _ hs => hs) hagrees paths_friendNameText
  obtain ⟨x, hx, hpath⟩ :=
    SelectionMap.mem_paths.mp (hselected ["Query", "user", "friend", "name"] (by simp))
  have hsteps : ∀ step ∈ [Step.edit friendNameText], step.IsOwn Schema.DistinctFields := by
    simp [Step.IsOwn]
  obtain ⟨-, hobjects, hresolve⟩ :=
    stored_resolves wellNamed_friends.distinct 5 (.showing "") hsteps hx
  rw [hpath] at hobjects hresolve
  exact ⟨x, hx, hpath, hresolve, hobjects ["Query", "user", "friend"] (by decide) (by decide)
    (by decide)⟩

end Picker

end QueryPicker
