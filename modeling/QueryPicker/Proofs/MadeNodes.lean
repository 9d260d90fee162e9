import Mathlib
import QueryPicker.Proofs.LeafMarks

/-!
# Which nodes are made

On the way to a path the children of every node from which it goes on are made, and checking the
node of the path makes all that is shown below it. Nothing else is made. So checking some paths
leads to the same nodes with the same marks, whatever the order.
-/

namespace QueryPicker

/-- What is made on the way along names: all that stands beside one of them, or is one of them. -/
inductive MadeAlong : List String → List String → Prop where
  | beside {name other : String} {names : List String} : MadeAlong (name :: names) [other]
  | further {name : String} {names rest : List String} :
      MadeAlong names rest → MadeAlong (name :: names) (name :: rest)

theorem madeAlong_cons_iff {name : String} {names more : List String} :
    MadeAlong (name :: names) more ↔
      (∃ other, more = [other]) ∨ ∃ rest, more = name :: rest ∧ MadeAlong names rest := by
  constructor
  · rintro (_ | h)
    · exact Or.inl ⟨_, rfl⟩
    · exact Or.inr ⟨_, rfl, h⟩
  · rintro (⟨other, rfl⟩ | ⟨rest, rfl, h⟩)
    · exact .beside
    · exact .further h

namespace TreeNode

/-- The names lead to a node that has been made. -/
def Has (n : TreeNode) (names : List String) : Prop := (n.follow? names).isSome = true

variable {n c : TreeNode} {name : String} {names : List String}

theorem has_nil (n : TreeNode) : n.Has [] := rfl

theorem has_cons (h : n.childNamed? name = some c) : n.Has (name :: names) ↔ c.Has names := by
  rw [Has, follow?, h]
  rfl

theorem not_has_cons (h : n.childNamed? name = none) : ¬ n.Has (name :: names) := by
  rw [Has, follow?, h]
  exact Bool.false_ne_true

theorem has_of_leaf (h : n.children = []) : n.Has names ↔ names = [] := by
  cases names with
  | nil => exact iff_of_true (has_nil n) rfl
  | cons name names =>
    exact iff_of_false (not_has_cons (by rw [childNamed?, h]; rfl)) (by simp)

end TreeNode

namespace TreeBounds

open TreeNode

variable {b : TreeBounds} {chain : List String} {info : NodeInfo} {children : List TreeNode}
  {n n' n'' m c c' : TreeNode} {made made' : List String → Prop} {names : List String}

/-- Of what is shown, the second node has what the first has, and what is to be made. -/
def Makes (b : TreeBounds) (chain : List String) (n n' : TreeNode) (made : List String → Prop) :
    Prop :=
  ∀ names, n'.Has names ↔ n.Has names ∨ (b.Shows chain n.info names ∧ made names)

theorem Makes.trans (h : Makes b chain n n' made) (hblank : n'.info.blank = n.info.blank)
    (h' : Makes b chain n' n'' made') :
    Makes b chain n n'' fun names => made names ∨ made' names := by
  intro names
  rw [h' names, h names, shows_iff_of_blank hblank, or_assoc, ← and_or_left]

theorem Makes.congr (h : Makes b chain n n' made)
    (hiff : ∀ names, b.Shows chain n.info names → (made names ↔ made' names)) :
    Makes b chain n n' made' := by
  intro names
  rw [h names]
  apply or_congr_right
  exact and_congr_right (hiff names)

theorem shows_of_has (h : Grown b chain n) (hhas : n.Has names) : b.Shows chain n.info names := by
  obtain ⟨m, hm⟩ := Option.isSome_iff_exists.mp hhas
  exact (follow?_spec h hm).1

/-- All that is made below one child. -/
theorem makes_set {i : Nat} (derived : CheckState) (hdistinct : b.schema.DistinctFields)
    (h : Grown b chain (.mk info children)) (hget : children[i]? = some c)
    (h' : Grown b chain (.mk { info with state := derived } (children.set i c')))
    (hblank : c'.info.blank = c.info.blank) (hmakes : Makes b (chainBelow chain info) c c' made) :
    ∃ f : Field, (TreeNode.mk info children).childNamed? f.name = some c ∧
      Makes b chain (.mk info children) (.mk { info with state := derived } (children.set i c'))
        fun names => ∃ rest, names = f.name :: rest ∧ made rest := by
  obtain ⟨f, hshape, hfield, hchild⟩ :=
    childNamed?_of_mem hdistinct h (List.mem_of_getElem? hget)
  have hi : i < children.length := (List.getElem?_eq_some_iff.mp hget).1
  have hpath : c.path = info.path.child f.name := NodeInfo.path_eq_of_blank hshape
  have hpath' : c'.path = info.path.child f.name :=
    (NodeInfo.path_eq_of_blank hblank).trans hpath
  refine ⟨f, hchild, fun names => ?_⟩
  cases names with
  | nil => exact iff_of_true (has_nil _) (Or.inl (has_nil _))
  | cons name rest =>
    by_cases hname : name = f.name
    · subst hname
      rw [has_cons (childNamed?_set_same hdistinct h' hi hpath'), has_cons hchild, hmakes rest]
      apply or_congr_right
      show _ ↔ b.Shows chain info (f.name :: rest) ∧ _
      rw [shows_cons_iff hshape hfield rest]
      simp
    · have hsame : (TreeNode.mk { info with state := derived } (children.set i c')).Has
          (name :: rest) ↔ (TreeNode.mk info children).Has (name :: rest) := by
        rw [Has, Has, follow?, follow?, childNamed?_set_other hget hpath hpath' hname]
      rw [hsame]
      simp [hname]

theorem makes_expand (h : Grown b chain n) (next : Nat) :
    Makes b chain n (b.expand chain next n).1 fun names => ∃ name, names = [name] := by
  have hexpanded := expanded_expand b chain next n
  have hext := extends_expand h next
  intro names
  cases names with
  | nil => exact iff_of_true (has_nil _) (Or.inl (has_nil _))
  | cons name rest =>
    cases h with
    | @made _ info children hmade hshape hsettled hgrown =>
      rw [expand, if_pos hmade]
      refine (or_iff_left_of_imp ?_).symm
      rintro ⟨hshows, name', hname⟩
      obtain ⟨rfl, rfl⟩ := List.cons.inj hname
      rcases childNamed?_cases hshape name with ⟨-, hnone⟩ | ⟨c, f, -, -, hchild, -⟩
      · exact absurd hshows (not_shows_cons hnone [])
      · exact (has_cons hchild).mpr (has_nil c)
    | @waiting _ info hwaiting hs hfresh =>
      have hnot : ¬ (TreeNode.mk info []).Has (name :: rest) := not_has_cons rfl
      have hblank := hext.blank
      have hleaves : ∀ c ∈ (b.expand chain next (.mk info [])).1.children, c.children = [] := by
        rw [expand, if_neg (by simp [hwaiting])]
        intro c hc
        obtain ⟨x, -, rfl⟩ := List.mem_map.mp hc
        rfl
      generalize (b.expand chain next (.mk info [])).1 = made at hexpanded hext hblank hleaves
      obtain ⟨info', children⟩ := made
      rw [or_iff_right hnot, ← shows_iff_of_blank hblank]
      rcases childNamed?_cases (shape_of_expanded hext.grown hexpanded) name with
        ⟨hnone, hnofield⟩ | ⟨c, f, hshape, hc, hchild, hfield⟩
      · exact iff_of_false (not_has_cons hnone) fun hshows => not_shows_cons hnofield rest hshows.1
      · rw [has_cons hchild, has_of_leaf (hleaves c hc)]
        constructor
        · rintro rfl
          exact ⟨(shows_cons_iff hshape hfield []).mpr trivial, name, rfl⟩
        · rintro ⟨-, name', hname⟩
          exact (List.cons.inj hname).2

theorem makes_expandAlong (hdistinct : b.schema.DistinctFields) (names : List String)
    (h : Grown b chain n) (next : Nat) :
    Makes b chain n (b.expandAlong chain next names n).1 (MadeAlong names) := by
  induction names generalizing chain n next with
  | nil =>
    intro more
    have hnot : ¬ MadeAlong [] more := by rintro ⟨⟩
    simp [expandAlong, hnot]
  | cons name names ih =>
    have hfirst := makes_expand h next
    have hext := extends_expand h next
    have hexpanded := expanded_expand b chain next n
    rw [expandAlong]
    generalize b.expand chain next n = made at hfirst hext hexpanded
    obtain ⟨⟨info, children⟩, after⟩ := made
    dsimp only at hfirst hext hexpanded ⊢
    have hshape := shape_of_expanded hext.grown hexpanded
    rcases childIndex?_cases hshape name with
      ⟨hindex, hnone⟩ | ⟨i, c, f, hindex, hget, hleaf, hcf, hf⟩
    · rw [hindex]
      refine hfirst.congr fun more hshows => ?_
      rw [madeAlong_cons_iff]
      refine (or_iff_left_of_imp ?_).symm
      rintro ⟨rest, rfl, -⟩
      exact absurd ((shows_iff_of_blank hext.blank _).mpr hshows) (not_shows_cons hnone rest)
    · have hget' : (TreeNode.mk info children).children[i]? = some c := hget
      have hc := grown_of_mem hext.grown c (List.mem_of_getElem? hget)
      have hbelow := extends_expandAlong names hc after
      have hset := (extends_set hext.grown hget hbelow).grown
      rw [hindex]
      dsimp only
      rw [hget']
      obtain ⟨g, hg, hmakes⟩ := makes_set info.state hdistinct hext.grown hget hset
        hbelow.blank (ih hc after)
      have hname : g.name = name := by
        have hgleaf := List.find?_some (p := fun d : TreeNode => d.path.leafName? == some g.name) hg
        rw [hleaf, beq_iff_eq] at hgleaf
        exact (Option.some.inj hgleaf).symm
      refine (hfirst.trans hext.blank hmakes).congr fun more _ => ?_
      rw [madeAlong_cons_iff, hname]

/-- Everything that is shown below a node is made when it is checked. -/
theorem makes_setAt (hdistinct : b.schema.DistinctFields) {position : List Nat}
    (h : Grown b chain n) (hat : n.at? position = some m) (next : Nat) :
    ∃ names, n.follow? names = some m ∧
      Makes b chain n (b.setAt .checked chain next position n).1 (names <+: ·) := by
  induction position generalizing chain n next with
  | nil =>
    obtain rfl : n = m := by simpa [at?] using hat
    refine ⟨[], rfl, fun names => ?_⟩
    have hgrows := growsTo_complete (fun _ => true) n next h
    have hhas : (b.setAt .checked chain next [] n).1.Has names ↔
        (b.complete (fun _ => true) chain next n).1.Has names := by
      rw [setAt, Has, follow?_setAll, Option.isSome_map]
      rfl
    rw [hhas]
    constructor
    · intro hmade
      have hshows := shows_of_has hgrows.extends'.grown hmade
      exact Or.inr ⟨(shows_iff_of_blank hgrows.extends'.blank names).mp hshows, List.nil_prefix⟩
    · intro hor
      have hshows : b.Shows chain n.info names := hor.elim (shows_of_has h) And.left
      obtain ⟨m, hm⟩ := follow?_of_full (hgrows.full fun _ => rfl) hgrows.extends'.grown
        ((shows_iff_of_blank hgrows.extends'.blank names).mpr hshows)
      exact Option.isSome_iff_exists.mpr ⟨m, hm⟩
  | cons i position ih =>
    obtain ⟨info, children⟩ := n
    obtain ⟨c, hget, hrest⟩ := Option.bind_eq_some_iff.mp hat
    have hget : children[i]? = some c := hget
    have hc := grown_of_mem h c (List.mem_of_getElem? hget)
    obtain ⟨names, hfollow, hmakes⟩ := ih hc hrest next
    obtain ⟨hgrown, hblank⟩ := grown_setAt (s := .checked) (by decide) position hc next
    rw [setAt_cons hget]
    obtain ⟨f, hchild, hset⟩ :=
      makes_set _ hdistinct h hget (grown_set h hget hgrown hblank rfl) hblank hmakes
    refine ⟨f.name :: names, by rw [follow?, hchild]; exact hfollow, ?_⟩
    refine hset.congr fun more _ => ?_
    rw [List.cons_prefix_iff]

/-- What checking a path makes: the nodes along it and, if it is shown, all that goes on from it. -/
def MakesFor (b : TreeBounds) (p q : FieldPath) : Prop :=
  b.ShowsPath q ∧ (MadeAlong p q ∨ (b.ShowsPath p ∧ p <+: q))

end TreeBounds

namespace SelectionTree

open TreeBounds TreeNode

variable {t t' : SelectionTree} {p q : FieldPath} {ps ps' : List FieldPath}

/-- A node has been made for the path. -/
def Has (t : SelectionTree) (q : FieldPath) : Prop := (t.find? q).isSome = true

theorem has_setRoot {i : Nat} {r r' : TreeNode} {made : List String → Prop} (h : t.IsGrown)
    (hget : t.roots[i]? = some r) (hblank : r'.info.blank = r.info.blank)
    (hmakes : Makes t.bounds [] r r' made) (next : Nat) : (t.setRoot i r' next).Has q ↔
      t.Has q ∨ ∃ names, q = r.path ++ names ∧ t.bounds.ShowsPath q ∧ made names := by
  have hindex : (t.setRoot i r' next).rootIndex? q = t.rootIndex? q :=
    rootIndex?_withRoots (blank_setRoot hget hblank) next q
  have hget' := getElem?_setRoot hget r' next
  rw [Has, Has, find?, find?, hindex]
  rcases h.rootIndex?_cases q with ⟨hidx, hnot⟩ | ⟨j, d, hidx, hgetj, hq, hshows⟩
  · rw [hidx]
    simp [hnot]
  · rw [hidx, Option.bind_some, Option.bind_some, hgetj, Option.bind_some]
    by_cases hj : i = j
    · subst hj
      obtain rfl : r = d := by simpa [hget] using hgetj
      rw [hget', Option.bind_some]
      refine (hmakes q.fieldSegments).trans (or_congr_right ?_)
      rw [← hshows]
      constructor
      · rintro ⟨hshown, hmade⟩
        exact ⟨q.fieldSegments, hq, hshown, hmade⟩
      · rintro ⟨names, hnames, hshown, hmade⟩
        obtain rfl : names = q.fieldSegments :=
          (List.append_cancel_left (hq.symm.trans hnames)).symm
        exact ⟨hshown, hmade⟩
    · have hgetj' : (t.setRoot i r' next).roots[j]? = some d :=
        (List.getElem?_set_ne hj).trans hgetj
      rw [hgetj', Option.bind_some]
      refine (or_iff_left ?_).symm
      rintro ⟨names, hnames, -⟩
      obtain ⟨hidx', -⟩ := h.rootIndex?_of_getElem? hget names
      rw [← hnames, hidx] at hidx'
      exact hj (Option.some.inj hidx').symm

/-- Roots are there from the start. -/
theorem IsGrown.has_root {name : String} (h : t.IsGrown) (hshows : t.bounds.ShowsPath [name]) :
    t.Has [name] := by
  rcases h.rootIndex?_cases [name] with ⟨-, hnot⟩ | ⟨i, r, hidx, hget, -⟩
  · exact absurd hshows hnot
  · rw [Has, find?, hidx, Option.bind_some, hget]
    rfl

theorem has_expandPath (h : t.IsGrown) (hdistinct : t.bounds.schema.DistinctFields)
    (p : FieldPath) : (t.expandPath p).1.Has q ↔
      t.Has q ∨ (t.bounds.ShowsPath q ∧ MadeAlong p q) := by
  rw [expandPath]
  rcases h.rootIndex?_cases p with ⟨hidx, hnot⟩ | ⟨i, r, hidx, hget, hp, -⟩
  · rw [hidx]
    refine (or_iff_left_of_imp ?_).symm
    rintro ⟨hshows, hmade⟩
    cases hmade with
    | beside => exact h.has_root hshows
    | @further name names rest _ =>
      rcases h.rootIndex?_cases (name :: rest) with ⟨-, hnot'⟩ | ⟨i, r, hidx', -⟩
      · exact absurd hshows hnot'
      · have hidx : t.rootIndex? (name :: rest) = none := hidx
        rw [hidx] at hidx'
        cases hidx'
  · rw [hidx]
    dsimp only
    rw [hget]
    have hr := h.grown r (List.mem_of_getElem? hget)
    obtain ⟨op, -, hpath⟩ := h.root_of_mem (List.mem_of_getElem? hget)
    refine (has_setRoot h hget (extends_expandAlong p.fieldSegments hr t.next).blank
      (makes_expandAlong hdistinct p.fieldSegments hr t.next) _).trans ?_
    rw [hpath] at hp ⊢
    rw [hp, FieldPath.root, List.cons_append, List.nil_append, madeAlong_cons_iff]
    constructor
    · rintro (hhas | ⟨names, hq, hshows, hmade⟩)
      · exact Or.inl hhas
      · exact Or.inr ⟨hshows, Or.inr ⟨names, hq, hmade⟩⟩
    · rintro (hhas | ⟨hshows, ⟨other, rfl⟩ | ⟨names, hq, hmade⟩⟩)
      · exact Or.inl hhas
      · exact Or.inl (h.has_root hshows)
      · exact Or.inr ⟨names, hq, hshows, hmade⟩

theorem has_apply {position : List Nat} {m : TreeNode} {changed : List NodeInfo} (h : t.IsGrown)
    (hdistinct : t.bounds.schema.DistinctFields) (hat : t.nodeAt? position = some m)
    (hok : t.apply m.id .checked = .ok (t', changed)) :
    t'.Has q ↔ t.Has q ∨ (t.bounds.ShowsPath q ∧ m.path <+: q) := by
  obtain ⟨-, i, rest, r, m', hposition, hget, hrest, -, rfl, -⟩ := apply_spec hok
  obtain rfl : position = i :: rest := by simpa [h.position?_of_nodeAt? hat] using hposition
  obtain rfl : m = m' := by simpa [nodeAt?, hget, hrest] using hat.symm
  have hr := h.grown r (List.mem_of_getElem? hget)
  obtain ⟨names, hfollow, hmakes⟩ := makes_setAt hdistinct hr hrest t.next
  obtain ⟨-, hblank⟩ := grown_setAt (s := .checked) (by decide) rest hr t.next
  refine (has_setRoot h hget hblank hmakes _).trans ?_
  rw [(follow?_spec hr hfollow).2.1]
  apply or_congr_right
  constructor
  · rintro ⟨more, rfl, hshows, hstart⟩
    exact ⟨hshows, (List.prefix_append_right_inj r.path).mpr hstart⟩
  · rintro ⟨hshows, more, rfl⟩
    exact ⟨names ++ more, List.append_assoc _ _ _, hshows, List.prefix_append _ _⟩

theorem has_checkSilently (h : t.IsGrown) (hdistinct : t.bounds.schema.DistinctFields)
    (p : FieldPath) : (t.checkSilently p).Has q ↔ t.Has q ∨ t.bounds.MakesFor p q := by
  have halong := has_expandPath (q := q) h hdistinct p
  have hext := extends_expandPath h p
  rcases checkSilently_eq h p with
    ⟨hnot, heq⟩ | ⟨t₁, position, m, changed, hshows, heq, hat, rfl, hok⟩
  · rw [heq] at halong
    rw [halong, MakesFor]
    simp [hnot]
  · rw [heq] at halong hext
    rw [has_apply hext.grown (hext.bounds ▸ hdistinct) hat hok, halong, hext.bounds, or_assoc,
      ← and_or_left, MakesFor]
    simp [hshows]

/-- The order in which paths are checked does not matter for the nodes that are made. -/
theorem has_foldl_checkSilently (h : t.IsGrown) (hdistinct : t.bounds.schema.DistinctFields)
    (ps : List FieldPath) : (ps.foldl checkSilently t).Has q ↔
      t.Has q ∨ ∃ p ∈ ps, t.bounds.MakesFor p q := by
  induction ps generalizing t with
  | nil => simp
  | cons p ps ih =>
    obtain ⟨hgrown, hbounds, -⟩ := keptIn_checkSilently h p
    rw [List.foldl_cons, ih hgrown (hbounds ▸ hdistinct), has_checkSilently h hdistinct, hbounds]
    simp [or_assoc]

/-- Trees that have the same nodes and the same marks show the same. -/
theorem state_find?_eq (hhas : t'.Has q ↔ t.Has q) (hmark : t'.markAt q = t.markAt q) :
    (t'.find? q).map (·.state) = (t.find? q).map (·.state) := by
  rw [Has, Has] at hhas
  rw [markAt, markAt] at hmark
  cases hfind : t.find? q with
  | none =>
    rw [hfind] at hhas
    have hnone : t'.find? q = none :=
      Option.not_isSome_iff_eq_none.mp fun hsome => Bool.false_ne_true (hhas.mp hsome)
    rw [hnone]
  | some n =>
    rw [hfind] at hhas hmark
    obtain ⟨n', hfind'⟩ := Option.isSome_iff_exists.mp (hhas.mpr rfl)
    rw [hfind'] at hmark ⊢
    exact congrArg some hmark

/-- Checking the same paths in another order leads to the same nodes with the same marks. -/
theorem foldl_checkSilently_perm (h : t.IsGrown) (hdistinct : t.bounds.schema.DistinctFields)
    (hperm : ps.Perm ps') (q : FieldPath) :
    (ps'.foldl checkSilently t).markAt q = (ps.foldl checkSilently t).markAt q ∧
      ((ps'.foldl checkSilently t).Has q ↔ (ps.foldl checkSilently t).Has q) := by
  obtain ⟨hgrown, hbounds, -⟩ := keptIn_foldl_checkSilently h ps
  obtain ⟨hgrown', hbounds', -⟩ := keptIn_foldl_checkSilently h ps'
  constructor
  · refine markAt_eq_of_leafPaths hgrown hgrown' (hbounds'.trans hbounds.symm) (hbounds ▸ hdistinct)
      (fun leaf hleaf => ?_) q
    rw [hbounds] at hleaf
    rw [markAt_foldl_checkSilently_leaf h hdistinct hleaf,
      markAt_foldl_checkSilently_leaf h hdistinct hleaf]
    simp only [hperm.mem_iff]
  · rw [has_foldl_checkSilently h hdistinct, has_foldl_checkSilently h hdistinct]
    simp only [hperm.mem_iff]

end SelectionTree

end QueryPicker
