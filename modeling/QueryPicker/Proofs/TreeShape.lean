import Mathlib
import QueryPicker.Tree.Growth

/-!
# The shape of a growing tree

Which names lead on from a node is settled by the schema and the bounds. A node that is still
waiting for its children is unchecked, and the mark of a node with children follows from theirs.
Growing a tree keeps this, and changes neither the marks nor what leads where.
-/

namespace QueryPicker

section Lists

variable {α β : Type} {R : α → β → Prop} {p : α → Bool} {q : β → Bool}

theorem find?_of_forall₂ {as : List α} {bs : List β} (h : List.Forall₂ R as bs)
    (hpq : ∀ a b, R a b → p a = q b) :
    (as.find? p = none ∧ bs.find? q = none) ∨
      ∃ a b, R a b ∧ as.find? p = some a ∧ bs.find? q = some b := by
  induction h with
  | nil => exact Or.inl ⟨rfl, rfl⟩
  | @cons a b as bs hab _ ih =>
    have heq := hpq a b hab
    cases hq : q b with
    | true => exact Or.inr ⟨a, b, hab, by simp [heq, hq], by simp [hq]⟩
    | false => simpa [List.find?_cons, heq, hq] using ih

theorem findIdx?_cases (p : α → Bool) (as : List α) :
    (as.findIdx? p = none ∧ as.find? p = none) ∨
      ∃ i a, as.findIdx? p = some i ∧ as[i]? = some a ∧ as.find? p = some a := by
  induction as with
  | nil => exact Or.inl ⟨rfl, rfl⟩
  | cons a as ih =>
    cases hp : p a with
    | true => exact Or.inr ⟨0, a, by simp [List.findIdx?_cons, hp], rfl, by simp [hp]⟩
    | false =>
      rcases ih with ⟨hidx, hfind⟩ | ⟨i, c, hidx, hget, hfind⟩
      · exact Or.inl ⟨by simp [List.findIdx?_cons, hp, hidx], by simp [hp, hfind]⟩
      · exact Or.inr ⟨i + 1, c, by simp [List.findIdx?_cons, hp, hidx], hget, by simp [hp, hfind]⟩

theorem forall₂_set {S : α → α → Prop} {as : List α} (hrefl : ∀ a ∈ as, S a a) {i : Nat} {a a' : α}
    (hget : as[i]? = some a) (h : S a a') : List.Forall₂ S as (as.set i a') := by
  induction as generalizing i with
  | nil => simp at hget
  | cons b as ih =>
    have htail : ∀ a ∈ as, S a a := fun a ha => hrefl a (List.mem_cons_of_mem _ ha)
    cases i with
    | zero =>
      obtain rfl : b = a := by simpa using hget
      exact .cons h (List.forall₂_same.mpr htail)
    | succ i => exact .cons (hrefl b List.mem_cons_self) (ih htail (by simpa using hget))

theorem mem_right_of_forall₂ {as : List α} {bs : List β} (h : List.Forall₂ R as bs) :
    ∀ b ∈ bs, ∃ a ∈ as, R a b := by
  induction h with
  | nil => simp
  | @cons a b as bs hab _ ih =>
    intro x hx
    rcases List.mem_cons.mp hx with rfl | hx
    · exact ⟨a, List.mem_cons_self, hab⟩
    · obtain ⟨y, hy, hyx⟩ := ih x hx
      exact ⟨y, List.mem_cons_of_mem a hy, hyx⟩

theorem getElem?_of_forall₂ {as : List α} {bs : List β} (h : List.Forall₂ R as bs) {i : Nat} {a : α}
    (ha : as[i]? = some a) : ∃ b, bs[i]? = some b ∧ R a b := by
  induction h generalizing i with
  | nil => simp at ha
  | @cons a' b as bs hab _ ih =>
    cases i with
    | zero =>
      obtain rfl : a' = a := by simpa using ha
      exact ⟨b, rfl, hab⟩
    | succ i => simpa using ih (by simpa using ha)

theorem map_eq_of_forall₂ {f : α → β} {as as' : List α}
    (h : List.Forall₂ (fun a a' => f a' = f a) as as') : as'.map f = as.map f := by
  induction h with
  | nil => rfl
  | cons ha _ ih => rw [List.map_cons, List.map_cons, ha, ih]

end Lists

namespace NodeInfo

/-- What is settled about a node when it is made. -/
def blank (info : NodeInfo) : NodeInfo :=
  { info with id := 0, expanded := false, state := .unchecked }

variable {info info' : NodeInfo}

theorem eq_of_blank (h : info.blank = info'.blank) :
    info.operation = info'.operation ∧ info.path = info'.path ∧ info.field? = info'.field? ∧
      info.objectType? = info'.objectType? := by
  simp only [blank, NodeInfo.mk.injEq] at h
  exact ⟨h.2.1, h.2.2.1, h.2.2.2.1, h.2.2.2.2.1⟩

theorem path_eq_of_blank (h : info.blank = info'.blank) : info.path = info'.path :=
  (eq_of_blank h).2.1

end NodeInfo

namespace TreeBounds

variable {b : TreeBounds} {chain : List String} {info info' : NodeInfo}

/-- What is settled about the child for a field. -/
def childShape (b : TreeBounds) (chain : List String) (info : NodeInfo) (f : Field) : NodeInfo :=
  (b.childInfo (chainBelow chain info) info 0 f).blank

/-- The names lead from the node to one that the tree shows, whether or not it has been made. -/
def Shows (b : TreeBounds) : List String → NodeInfo → List String → Prop
  | _, _, [] => True
  | chain, info, name :: names => ∃ f, (b.fieldsOf info).find? (·.name == name) = some f ∧
      b.Shows (chainBelow chain info) (b.childShape chain info f) names

theorem fieldsOf_eq_of_blank (h : info.blank = info'.blank) :
    b.fieldsOf info = b.fieldsOf info' := by
  obtain ⟨-, -, -, hobject⟩ := NodeInfo.eq_of_blank h
  rw [fieldsOf, fieldsOf, hobject]

theorem chainBelow_eq_of_blank (h : info.blank = info'.blank) :
    chainBelow chain info = chainBelow chain info' := by
  obtain ⟨-, -, -, hobject⟩ := NodeInfo.eq_of_blank h
  rw [chainBelow, chainBelow, hobject]

theorem blank_childInfo (h : info.blank = info'.blank) (below : List String) (id id' : Nat)
    (f : Field) : (b.childInfo below info id f).blank = (b.childInfo below info' id' f).blank := by
  obtain ⟨hoperation, hpath, -, -⟩ := NodeInfo.eq_of_blank h
  simp only [childInfo, NodeInfo.blank, hpath, hoperation]

theorem childShape_eq_of_blank (h : info.blank = info'.blank) (f : Field) :
    b.childShape chain info f = b.childShape chain info' f := by
  rw [childShape, childShape, chainBelow_eq_of_blank h]
  exact blank_childInfo h _ 0 0 f

theorem shows_iff_of_blank (h : info.blank = info'.blank) (names : List String) :
    b.Shows chain info names ↔ b.Shows chain info' names := by
  cases names with
  | nil => rfl
  | cons name names =>
    simp only [Shows, fieldsOf_eq_of_blank h, chainBelow_eq_of_blank h, childShape_eq_of_blank h]

theorem shows_blank (names : List String) :
    b.Shows chain info.blank names ↔ b.Shows chain info names := by
  have hblank : info.blank.blank = info.blank := rfl
  exact shows_iff_of_blank hblank names

theorem shows_child {below : List String} {f : Field} {c : NodeInfo}
    (h : c.blank = b.childShape chain info f) (names : List String) :
    b.Shows below c names ↔ b.Shows below (b.childShape chain info f) names := by
  have hblank : c.blank = (b.childShape chain info f).blank := h
  exact shows_iff_of_blank hblank names

/-- Names lead on from a node through its child for the field. -/
theorem shows_cons_iff {f : Field} {c : NodeInfo} {name : String}
    (hshape : c.blank = b.childShape chain info f)
    (hfield : (b.fieldsOf info).find? (·.name == name) = some f) (names : List String) :
    b.Shows chain info (name :: names) ↔ b.Shows (chainBelow chain info) c names := by
  rw [shows_child hshape names]
  constructor
  · rintro ⟨g, hg, hshows⟩
    obtain rfl : f = g := by simpa [hfield] using hg
    exact hshows
  · intro hshows
    exact ⟨f, hfield, hshows⟩

theorem not_shows_cons {name : String}
    (hnone : (b.fieldsOf info).find? (·.name == name) = none) (names : List String) :
    ¬ b.Shows chain info (name :: names) := by
  rintro ⟨f, hfield, -⟩
  rw [hnone] at hfield
  cases hfield

theorem shows_of_append {names more : List String} (h : b.Shows chain info (names ++ more)) :
    b.Shows chain info names := by
  induction names generalizing chain info with
  | nil => trivial
  | cons name names ih =>
    obtain ⟨f, hf, hmore⟩ := h
    exact ⟨f, hf, ih hmore⟩

end TreeBounds

namespace TreeNode

/-- The mark of the node to which the names lead; nodes that have not been made are unchecked. -/
def markAt (names : List String) (n : TreeNode) : CheckState :=
  match n.follow? names with
  | some m => m.state
  | none => .unchecked

theorem markAt_cons (name : String) (names : List String) (n : TreeNode) :
    n.markAt (name :: names) =
      match n.childNamed? name with
      | some c => c.markAt names
      | none => .unchecked := by
  unfold markAt
  rw [follow?]
  cases n.childNamed? name <;> rfl

end TreeNode

namespace TreeBounds

/-- The mark follows from the marks of the children. Without children it is not mixed. -/
def Settled (s : CheckState) (children : List TreeNode) : Prop :=
  if children = [] then s ≠ .mixed else s = .ofChildren (children.map (·.state))

/-- A node of a tree that has grown: below the types of the chain it waits for its children, or it
has one for each field of its type. -/
inductive Grown (b : TreeBounds) : List String → TreeNode → Prop where
  | waiting {chain info} : info.expanded = false → info.state = .unchecked →
      (∀ name, info.objectType? = some name → name ∉ chain) → Grown b chain (.mk info [])
  | made {chain info children} : info.expanded = true →
      List.Forall₂ (fun c f => c.info.blank = b.childShape chain info f) children
        (b.fieldsOf info) →
      Settled info.state children →
      (∀ c ∈ children, Grown b (chainBelow chain info) c) → Grown b chain (.mk info children)

/-- No node waits for its children. -/
inductive Full : TreeNode → Prop where
  | made {info children} : info.expanded = true → (∀ c ∈ children, Full c) →
      Full (.mk info children)

variable {b : TreeBounds} {chain : List String} {info : NodeInfo} {children : List TreeNode}

theorem leafName?_child {c : TreeNode} {f : Field}
    (h : c.info.blank = b.childShape chain info f) (name : String) :
    (c.path.leafName? == some name) = (f.name == name) := by
  have hpath : c.path = info.path.child f.name := NodeInfo.path_eq_of_blank h
  rw [hpath, FieldPath.leafName?_child]
  rfl

/-- A child is found under the name of its field. -/
theorem childNamed?_cases
    (h : List.Forall₂ (fun c f => c.info.blank = b.childShape chain info f) children
      (b.fieldsOf info)) (name : String) :
    ((TreeNode.mk info children).childNamed? name = none ∧
        (b.fieldsOf info).find? (·.name == name) = none) ∨
      ∃ c f, c.info.blank = b.childShape chain info f ∧ c ∈ children ∧
        (TreeNode.mk info children).childNamed? name = some c ∧
        (b.fieldsOf info).find? (·.name == name) = some f := by
  rcases find?_of_forall₂ (p := fun c => c.path.leafName? == some name)
      (q := fun f => f.name == name) h (fun c f hcf => leafName?_child hcf name) with
    hnone | ⟨c, f, hcf, hc, hf⟩
  · exact Or.inl hnone
  · exact Or.inr ⟨c, f, hcf, List.mem_of_find?_eq_some hc, hc, hf⟩

theorem ofChildren_eq {states : List CheckState} {s : CheckState} (hne : states ≠ [])
    (hall : ∀ t ∈ states, t = s) : CheckState.ofChildren states = s := by
  obtain ⟨t, ts, rfl⟩ := List.exists_cons_of_ne_nil hne
  have heq : ∀ u : CheckState, ((t :: ts).all (· == u)) = (s == u) := by
    intro u
    by_cases hu : s = u
    · subst hu
      simpa using hall
    · have ht := hall t List.mem_cons_self
      simp [ht, hu]
  unfold CheckState.ofChildren
  rw [heq, heq]
  cases s <;> rfl

theorem eq_of_ofChildren {states : List CheckState} {s : CheckState} (hs : s ≠ .mixed)
    (h : CheckState.ofChildren states = s) : ∀ t ∈ states, t = s := by
  unfold CheckState.ofChildren at h
  split at h
  · rename_i hall
    subst h
    simpa using hall
  · split at h
    · rename_i hall
      subst h
      simpa using hall
    · exact absurd h.symm hs

theorem settled_of_all {s : CheckState} (hall : ∀ c ∈ children, c.state = s) (hs : s ≠ .mixed) :
    Settled s children := by
  unfold Settled
  split
  · exact hs
  · rename_i hne
    refine (ofChildren_eq (by simpa using hne) fun t ht => ?_).symm
    obtain ⟨c, hc, rfl⟩ := List.mem_map.mp ht
    exact hall c hc

theorem state_of_settled {s : CheckState} (h : Settled s children) (hs : s ≠ .mixed) :
    ∀ c ∈ children, c.state = s := by
  intro c hc
  have hne : children ≠ [] := List.ne_nil_of_mem hc
  rw [Settled, if_neg hne] at h
  exact eq_of_ofChildren hs h.symm _ (List.mem_map.mpr ⟨c, hc, rfl⟩)

/-- A mark that is not mixed is that of all nodes below. -/
theorem state_of_follow? {n m : TreeNode} {s : CheckState} {names : List String}
    (h : Grown b chain n) (hs : n.state = s) (hmixed : s ≠ .mixed)
    (hfollow : n.follow? names = some m) : m.state = s := by
  induction names generalizing chain n with
  | nil =>
    obtain rfl : n = m := by simpa [TreeNode.follow?] using hfollow
    exact hs
  | cons name names ih =>
    rw [TreeNode.follow?] at hfollow
    obtain ⟨c, hchild, hrest⟩ := Option.bind_eq_some_iff.mp hfollow
    have hc : c ∈ n.children := List.mem_of_find?_eq_some hchild
    cases h with
    | waiting => simp [TreeNode.children] at hc
    | made _ _ hsettled hgrown =>
      exact ih (hgrown c hc) (state_of_settled (hs ▸ hsettled) hmixed c hc) hrest

/-- Below an unchecked node nothing is marked. -/
theorem markAt_of_unchecked {n : TreeNode} (h : Grown b chain n) (hs : n.state = .unchecked)
    (names : List String) : n.markAt names = .unchecked := by
  unfold TreeNode.markAt
  split
  · rename_i m hfollow
    exact state_of_follow? h hs (by decide) hfollow
  · rfl

theorem markAt_append {n : TreeNode} {names : List String} (h : Grown b chain n)
    (hs : n.markAt names = .unchecked) (more : List String) :
    n.markAt (names ++ more) = .unchecked := by
  induction names generalizing chain n with
  | nil => exact markAt_of_unchecked h hs more
  | cons name names ih =>
    rw [List.cons_append, TreeNode.markAt_cons]
    rw [TreeNode.markAt_cons] at hs
    cases hchild : n.childNamed? name with
    | none => rfl
    | some c =>
      rw [hchild] at hs
      have hc : c ∈ n.children := List.mem_of_find?_eq_some hchild
      cases h with
      | waiting => simp [TreeNode.children] at hc
      | made _ _ _ hgrown => exact ih (hgrown c hc) hs

/-- The second node is the first with more below it. -/
structure Extends (b : TreeBounds) (chain : List String) (n n' : TreeNode) : Prop where
  grown : Grown b chain n'
  blank : n'.info.blank = n.info.blank
  marks : ∀ names, n'.markAt names = n.markAt names

namespace Extends

variable {n n' n'' : TreeNode}

theorem refl (h : Grown b chain n) : Extends b chain n n := ⟨h, rfl, fun _ => rfl⟩

theorem trans (h : Extends b chain n n') (h' : Extends b chain n' n'') : Extends b chain n n'' :=
  ⟨h'.grown, h'.blank.trans h.blank, fun names => (h'.marks names).trans (h.marks names)⟩

theorem state (h : Extends b chain n n') : n'.state = n.state := h.marks []

/-- A node that was and stays unchecked may get anything below it that fits. -/
theorem of_unchecked (h : Grown b chain n) (h' : Grown b chain n')
    (hblank : n'.info.blank = n.info.blank) (hs : n.state = .unchecked)
    (hs' : n'.state = .unchecked) : Extends b chain n n' := by
  refine ⟨h', hblank, ?_⟩
  intro names
  rw [markAt_of_unchecked h hs, markAt_of_unchecked h' hs']

end Extends

theorem forall₂_shape {children' : List TreeNode}
    (hchildren : List.Forall₂ (fun c c' => c'.info.blank = c.info.blank) children children')
    (hshape : List.Forall₂ (fun c f => c.info.blank = b.childShape chain info f) children
      (b.fieldsOf info)) :
    List.Forall₂ (fun c f => c.info.blank = b.childShape chain info f) children'
      (b.fieldsOf info) := by
  generalize b.fieldsOf info = fields at hshape
  induction hchildren generalizing fields with
  | nil => exact hshape
  | cons hc _ ih =>
    cases hshape with
    | cons hf hfs => exact .cons (hc.trans hf) (ih _ hfs)

theorem markAt_cons_of_extends {children' : List TreeNode} {below : List String}
    (hchildren : List.Forall₂ (Extends b below) children children') (name : String)
    (names : List String) : (TreeNode.mk info children').markAt (name :: names) =
      (TreeNode.mk info children).markAt (name :: names) := by
  have hsame : ∀ c c', Extends b below c c' →
      (c.path.leafName? == some name) = (c'.path.leafName? == some name) := by
    intro c c' hcc
    have hpath : c'.path = c.path := NodeInfo.path_eq_of_blank hcc.blank
    rw [hpath]
  rw [TreeNode.markAt_cons, TreeNode.markAt_cons]
  rcases find?_of_forall₂ hchildren hsame with ⟨hnone, hnone'⟩ | ⟨c, c', hcc, hc, hc'⟩
  · have hnone : (TreeNode.mk info children).childNamed? name = none := hnone
    have hnone' : (TreeNode.mk info children').childNamed? name = none := hnone'
    rw [hnone, hnone']
  · have hc : (TreeNode.mk info children).childNamed? name = some c := hc
    have hc' : (TreeNode.mk info children').childNamed? name = some c' := hc'
    rw [hc, hc']
    exact hcc.marks names

/-- A node whose children are extended is extended. -/
theorem extends_of_children {children' : List TreeNode} (h : Grown b chain (.mk info children))
    (hexpanded : info.expanded = true)
    (hchildren : List.Forall₂ (Extends b (chainBelow chain info)) children children') :
    Extends b chain (.mk info children) (.mk info children') := by
  cases h with
  | waiting hnot => simp [hexpanded] at hnot
  | made _ hshape hsettled hgrown =>
    have hblank := hchildren.imp fun c c' hcc => hcc.blank
    have hstates : children'.map (·.state) = children.map (·.state) :=
      map_eq_of_forall₂ (hchildren.imp fun c c' hcc => hcc.state)
    refine ⟨.made hexpanded (forall₂_shape hblank hshape) ?_ ?_, rfl, ?_⟩
    · have hnil : children' = [] ↔ children = [] := by
        rw [← List.map_eq_nil_iff (f := (·.state)), hstates, List.map_eq_nil_iff]
      simp only [Settled, hnil, hstates] at hsettled ⊢
      exact hsettled
    · intro c' hc'
      obtain ⟨c, -, hcc⟩ := mem_right_of_forall₂ hchildren c' hc'
      exact hcc.grown
    · intro names
      cases names with
      | nil => rfl
      | cons name names => exact markAt_cons_of_extends hchildren name names

/-- The type of the node has not been entered above it. -/
def EntersNew (chain : List String) (info : NodeInfo) : Prop :=
  ∀ name, info.objectType? = some name → name ∉ chain

theorem entersNew_childInfo (b : TreeBounds) (below : List String) (parent : NodeInfo) (id : Nat)
    (f : Field) : EntersNew below (b.childInfo below parent id f) := by
  intro name hname
  simp only [childInfo] at hname
  split at hname
  · split at hname
    · cases hname
    · rename_i hbounds
      cases hname
      exact fun hmem => hbounds (Or.inl hmem)
  · cases hname

theorem grown_child (below : List String) {parent : NodeInfo} (hs : parent.state = .unchecked)
    (id : Nat) (f : Field) : Grown b below (.mk (b.childInfo below parent id f) []) := by
  have hstate : (b.childInfo below parent id f).state = .unchecked := by
    show inherited parent.state = .unchecked
    rw [hs]
    rfl
  cases hobject : (b.childInfo below parent id f).objectType? with
  | none =>
    have hexpanded : (b.childInfo below parent id f).expanded = true := by
      show (b.childInfo below parent id f).objectType?.isNone = true
      rw [hobject]
      rfl
    have hfields : b.fieldsOf (b.childInfo below parent id f) = [] := by
      rw [fieldsOf, hobject]
      rfl
    refine .made hexpanded (by rw [hfields]; exact .nil) ?_ (by simp)
    rw [hstate]
    exact settled_of_all (by simp) (by decide)
  | some name =>
    refine .waiting ?_ hstate ?_
    · show (b.childInfo below parent id f).objectType?.isNone = false
      rw [hobject]
      rfl
    · exact entersNew_childInfo b below parent id f

theorem childInfos_cons (below : List String) (parent : NodeInfo) (next : Nat) (f : Field)
    (fields : List Field) : b.childInfos below parent next (f :: fields) =
      b.childInfo below parent next f :: b.childInfos below parent (next + 1) fields := by
  simp only [childInfos, List.mapIdx_cons, Nat.add_zero]
  congr 1
  apply List.mapIdx_eq_mapIdx_iff.mpr
  intro i hi
  rw [Nat.add_assoc, Nat.add_comm 1 i]

theorem forall₂_childInfos (below : List String) (parent : NodeInfo) (next : Nat)
    (fields : List Field) :
    List.Forall₂ (fun c f => ∃ id, c = b.childInfo below parent id f)
      (b.childInfos below parent next fields) fields := by
  induction fields generalizing next with
  | nil => exact .nil
  | cons f fields ih =>
    rw [childInfos_cons]
    exact .cons ⟨next, rfl⟩ (ih (next + 1))

theorem shape_of_extends_childInfos {next : Nat} {below : List String} {fields : List Field}
    (hbelow : below = chainBelow chain info)
    (hchildren : List.Forall₂ (fun c n => Extends b below (.mk c []) n)
      (b.childInfos below info next fields) children) :
    List.Forall₂ (fun c f => c.info.blank = b.childShape chain info f) children fields := by
  subst hbelow
  have hnew := forall₂_childInfos (b := b) (chainBelow chain info) info next fields
  generalize b.childInfos (chainBelow chain info) info next fields = infos at hchildren hnew
  induction hchildren generalizing fields with
  | nil =>
    cases hnew
    exact .nil
  | cons hc _ ih =>
    cases hnew with
    | cons hf hfs =>
      obtain ⟨id, rfl⟩ := hf
      exact .cons (hc.blank.trans (blank_childInfo rfl _ id 0 _)) (ih hfs)

/-- A node that was waiting, with children that extend the new ones for its fields. -/
theorem extends_waiting (next : Nat) (hwaiting : Grown b chain (.mk info []))
    (hs : info.state = .unchecked)
    (hchildren : List.Forall₂ (fun c n => Extends b (chainBelow chain info) (.mk c []) n)
      (b.childInfos (chainBelow chain info) info next (b.fieldsOf info)) children) :
    Extends b chain (.mk info []) (.mk { info with expanded := true } children) := by
  have hshape := shape_of_extends_childInfos rfl hchildren
  have hstates : ∀ n ∈ children, n.state = .unchecked := by
    intro n hn
    obtain ⟨c, hc, hcn⟩ := mem_right_of_forall₂ hchildren n hn
    obtain ⟨i, hi, rfl⟩ := List.getElem_of_mem hc
    obtain ⟨f, -, id, hf⟩ := getElem?_of_forall₂ (forall₂_childInfos _ _ next _)
      (List.getElem?_eq_getElem hi)
    rw [hcn.state, hf]
    show inherited info.state = .unchecked
    rw [hs]
    rfl
  have hgrown : Grown b chain (.mk { info with expanded := true } children) := by
    refine .made rfl hshape ?_ ?_
    · show Settled info.state children
      rw [hs]
      exact settled_of_all hstates (by decide)
    · intro n hn
      obtain ⟨c, -, hcn⟩ := mem_right_of_forall₂ hchildren n hn
      exact hcn.grown
  exact Extends.of_unchecked hwaiting hgrown rfl hs hs

theorem grown_childInfos {below : List String} {parent : NodeInfo} (hs : parent.state = .unchecked)
    {next : Nat} {fields : List Field} :
    ∀ c ∈ b.childInfos below parent next fields, Grown b below (.mk c []) := by
  intro c hc
  obtain ⟨i, hi, rfl⟩ := List.getElem_of_mem hc
  obtain ⟨f, -, id, hf⟩ := getElem?_of_forall₂ (forall₂_childInfos below parent next fields)
    (List.getElem?_eq_getElem hi)
  rw [hf]
  exact grown_child below hs id f

theorem extends_expand {n : TreeNode} (h : Grown b chain n) (next : Nat) :
    Extends b chain n (b.expand chain next n).1 := by
  cases h with
  | @made _ info children hexpanded hshape hsettled hgrown =>
    rw [expand, if_pos hexpanded]
    exact Extends.refl (.made hexpanded hshape hsettled hgrown)
  | @waiting _ info hexpanded hs hfresh =>
    rw [expand, if_neg (by simp [hexpanded])]
    refine extends_waiting next (.waiting hexpanded hs hfresh) hs ?_
    apply List.forall₂_map_right_iff.mpr
    apply List.forall₂_same.mpr
    intro c hc
    exact Extends.refl (grown_childInfos hs c hc)

/-- Grows from the first node; without a limit nothing is left waiting. -/
structure GrowsTo (b : TreeBounds) (reach : Nat → Bool) (chain : List String) (n n' : TreeNode) :
    Prop where
  extends' : Extends b chain n n'
  full : (∀ length, reach length = true) → Full n'

theorem full_leaf (h : info.expanded = true) : Full (.mk info []) := .made h (by simp)

theorem waiting_of_not_expanded (h : Grown b chain (.mk info children))
    (hexpanded : info.expanded = false) : children = [] ∧ info.state = .unchecked ∧
      ∀ name, info.objectType? = some name → name ∉ chain := by
  cases h with
  | waiting _ hs hfresh => exact ⟨rfl, hs, hfresh⟩
  | made hmade => simp [hexpanded] at hmade

/-- A waiting node with no fields to wait for. -/
theorem growsTo_leaf {reach : Nat → Bool} (h : Grown b chain (.mk info []))
    (hexpanded : info.expanded = false) (hfields : b.fieldsOf info = []) :
    GrowsTo b reach chain (.mk info []) (.mk { info with expanded := true } []) := by
  obtain ⟨-, hs, -⟩ := waiting_of_not_expanded h hexpanded
  refine ⟨extends_waiting 0 h hs ?_, fun _ => full_leaf rfl⟩
  rw [hfields]
  exact .nil

section Equations

variable {reach : Nat → Bool} {next : Nat}

theorem grow_stopped (h : (info.expanded || !reach info.path.length) = true) :
    b.grow reach chain next info = (.mk info [], next) := by
  rw [grow, if_pos h]

theorem grow_leaf (hgo : ¬ (info.expanded || !reach info.path.length) = true)
    (hnone : info.objectType?.bind b.schema.typeNamed? = none) :
    b.grow reach chain next info = (.mk { info with expanded := true } [], next) := by
  rw [grow, if_neg hgo]
  split
  · rfl
  · rename_i name hobject
    rw [hobject, Option.bind_some] at hnone
    split
    · rfl
    · rename_i t htype
      rw [hnone] at htype
      cases htype

theorem grow_repeated (hgo : ¬ (info.expanded || !reach info.path.length) = true) {name : String}
    (hobject : info.objectType? = some name) (hname : name ∈ chain) :
    b.grow reach chain next info = (.mk { info with expanded := true } [], next) := by
  rw [grow, if_neg hgo]
  split
  · rfl
  · rename_i name' hobject'
    obtain rfl : name = name' := by simpa [hobject] using hobject'
    split
    · rfl
    · rw [dif_pos hname]

theorem grow_type (hgo : ¬ (info.expanded || !reach info.path.length) = true) {name : String}
    {t : TypeDef} (hobject : info.objectType? = some name)
    (htype : b.schema.typeNamed? name = some t) (hname : name ∉ chain) :
    b.grow reach chain next info =
      (.mk { info with expanded := true }
          (b.growAll reach (name :: chain) (next + t.fields.length)
            (b.childInfos (name :: chain) info next t.fields)).1,
        (b.growAll reach (name :: chain) (next + t.fields.length)
          (b.childInfos (name :: chain) info next t.fields)).2) := by
  rw [grow, if_neg hgo]
  split
  · rename_i hnone
    rw [hobject] at hnone
    cases hnone
  · rename_i name' hobject'
    obtain rfl : name = name' := by simpa [hobject] using hobject'
    split
    · rename_i hnone
      rw [htype] at hnone
      cases hnone
    · rename_i t' htype'
      obtain rfl : t = t' := by simpa [htype] using htype'
      rw [dif_neg hname]

end Equations

theorem growsTo_grow (b : TreeBounds) (reach : Nat → Bool) (chain : List String) (next : Nat)
    (info : NodeInfo) :
    Grown b chain (.mk info []) →
      GrowsTo b reach chain (.mk info []) (b.grow reach chain next info).1 := by
  induction chain, next, info using grow.induct b reach _
    (fun chain next infos => (∀ c ∈ infos, Grown b chain (.mk c [])) →
      List.Forall₂ (fun c n => GrowsTo b reach chain (.mk c []) n) infos
        (b.growAll reach chain next infos).1) with
  | case1 chain next info hstop =>
    intro h
    rw [grow_stopped hstop]
    refine ⟨Extends.refl h, fun hreach => full_leaf ?_⟩
    simpa [hreach] using hstop
  | case2 chain next info hgo hobject =>
    intro h
    have hnone : info.objectType?.bind b.schema.typeNamed? = none := by rw [hobject]; rfl
    rw [grow_leaf hgo hnone]
    exact growsTo_leaf h (by simp at hgo; exact hgo.1) (by rw [fieldsOf, hnone])
  | case3 chain next info hgo name hobject htype =>
    intro h
    have hnone : info.objectType?.bind b.schema.typeNamed? = none := by
      rw [hobject]
      exact htype
    rw [grow_leaf hgo hnone]
    exact growsTo_leaf h (by simp at hgo; exact hgo.1) (by rw [fieldsOf, hnone])
  | case4 chain next info hgo name hobject t htype hmem =>
    intro h
    have hexpanded : info.expanded = false := by simp at hgo; exact hgo.1
    exact absurd hmem ((waiting_of_not_expanded h hexpanded).2.2 name hobject)
  | case5 chain next info hgo name hobject t htype hname infos _ children after _ ih =>
    intro h
    have hexpanded : info.expanded = false := by simp at hgo; exact hgo.1
    obtain ⟨-, hs, -⟩ := waiting_of_not_expanded h hexpanded
    have hfields : b.fieldsOf info = t.fields := by simp [fieldsOf, hobject, htype]
    have hbelow : chainBelow chain info = name :: chain := by simp [chainBelow, hobject]
    have hall := ih (grown_childInfos hs)
    rw [grow_type hgo hobject htype hname]
    constructor
    · apply extends_waiting next h hs
      rw [hbelow, hfields]
      exact hall.imp fun _ _ hcn => hcn.extends'
    · intro hreach
      apply Full.made rfl
      intro n hn
      obtain ⟨c, -, hcn⟩ := mem_right_of_forall₂ hall n hn
      exact hcn.full hreach
  | case6 chain next =>
    rw [growAll]
    exact .nil
  | case7 chain next info infos children after hall n last hgrow ihall ihgrow h =>
    have htail := ihall fun c hc => h c (List.mem_cons_of_mem info hc)
    have hhead := ihgrow (h info List.mem_cons_self)
    rw [hall] at htail
    rw [hgrow] at hhead
    rw [growAll, hall]
    dsimp only
    rw [hgrow]
    exact .cons hhead htail

mutual

theorem growsTo_complete (reach : Nat → Bool) : ∀ (n : TreeNode) {chain : List String} (next : Nat),
    Grown b chain n → GrowsTo b reach chain n (b.complete reach chain next n).1
  | .mk info children, chain, next, h => by
    rw [complete]
    split
    · rename_i hstop
      constructor
      · exact Extends.refl h
      · intro hreach
        simp [hreach] at hstop
    · split
      · rename_i hexpanded
        have hgrown : ∀ c ∈ children, Grown b (chainBelow chain info) c := by
          cases h with
          | waiting => simp
          | made _ _ _ hgrown => exact hgrown
        have hall := growsTo_completeAll reach children next hgrown
        constructor
        · exact extends_of_children h hexpanded (hall.imp fun _ _ hcn => hcn.extends')
        · intro hreach
          apply Full.made hexpanded
          intro n hn
          obtain ⟨c, -, hcn⟩ := mem_right_of_forall₂ hall n hn
          exact hcn.full hreach
      · rename_i hexpanded
        obtain ⟨rfl, -, -⟩ := waiting_of_not_expanded h (by simpa using hexpanded)
        exact growsTo_grow b reach chain next info h

theorem growsTo_completeAll (reach : Nat → Bool) : ∀ (ns : List TreeNode) {chain : List String}
    (next : Nat), (∀ n ∈ ns, Grown b chain n) →
    List.Forall₂ (GrowsTo b reach chain) ns (b.completeAll reach chain next ns).1
  | [], _, _, _ => .nil
  | n :: ns, chain, next, h => by
    have htail := growsTo_completeAll reach ns next fun m hm => h m (List.mem_cons_of_mem n hm)
    rw [completeAll]
    exact .cons (growsTo_complete reach n _ (h n List.mem_cons_self)) htail

end

theorem grown_of_mem (h : Grown b chain (.mk info children)) :
    ∀ c ∈ children, Grown b (chainBelow chain info) c := by
  cases h with
  | waiting => simp
  | made _ _ _ hgrown => exact hgrown

theorem expanded_of_mem {c : TreeNode} (h : Grown b chain (.mk info children)) (hc : c ∈ children) :
    info.expanded = true := by
  cases h with
  | waiting => simp at hc
  | made hexpanded => exact hexpanded

/-- Extending one child extends the node. -/
theorem extends_set {i : Nat} {c c' : TreeNode} (h : Grown b chain (.mk info children))
    (hget : children[i]? = some c) (hc : Extends b (chainBelow chain info) c c') :
    Extends b chain (.mk info children) (.mk info (children.set i c')) := by
  refine extends_of_children h (expanded_of_mem h (List.mem_of_getElem? hget)) ?_
  exact forall₂_set (fun d hd => Extends.refl (grown_of_mem h d hd)) hget hc

theorem extends_expandAt {n : TreeNode} (position : List Nat) (h : Grown b chain n) (next : Nat) :
    Extends b chain n (b.expandAt chain next position n).1 := by
  induction position generalizing chain n next with
  | nil => exact extends_expand h next
  | cons i position ih =>
    obtain ⟨info, children⟩ := n
    rw [expandAt]
    cases hget : (TreeNode.mk info children).children[i]? with
    | none => exact Extends.refl h
    | some c =>
      have hc := grown_of_mem h c (List.mem_of_getElem? hget)
      exact extends_set h hget (ih hc next)

theorem extends_expandAlong {n : TreeNode} (names : List String) (h : Grown b chain n)
    (next : Nat) :
    Extends b chain n (b.expandAlong chain next names n).1 := by
  induction names generalizing chain n next with
  | nil => exact Extends.refl h
  | cons name names ih =>
    have hfirst := extends_expand h next
    rw [expandAlong]
    generalize b.expand chain next n = made at hfirst
    obtain ⟨⟨info, children⟩, after⟩ := made
    dsimp only at hfirst ⊢
    split
    · exact hfirst
    · rename_i i _
      split
      · exact hfirst
      · rename_i c hget
        have hc := grown_of_mem hfirst.grown c (List.mem_of_getElem? hget)
        exact hfirst.trans (extends_set hfirst.grown hget (ih hc after))

end TreeBounds

end QueryPicker
