import Mathlib
import QueryPicker.Proofs.SelectedPaths

/-!
# The walk along a document, a selection at a time

A walk keeps the selections it has still to look at, each with the fragments being spread there, the
type and the path. Looking at one reports at most one path and puts the selections inside it, or of
the fragment it spreads, in its place. No path gets lost on the way, and each look takes something
off a weight: a fragment is spread only while it is not being spread, so the weight of a selection
grows with a power of the fragments that are left.
-/

namespace QueryPicker

namespace Document

mutual

/-- How many selections there are, counting those inside others. -/
def Selection.size : Selection → Nat
  | .field _ _ _ _ sels => 1 + selectionsSize sels
  | .spread .. => 1
  | .inline _ _ sels => 1 + selectionsSize sels

def selectionsSize : List Selection → Nat
  | [] => 0
  | sel :: sels => sel.size + selectionsSize sels

end

theorem Selection.size_pos (sel : Selection) : 0 < sel.size := by
  cases sel <;> simp only [size] <;> omega

def Definition.selections : Definition → List Selection
  | .operation _ _ sels => sels
  | .fragment _ _ sels => sels

def size (doc : Document) : Nat := (doc.map fun d => selectionsSize d.selections).sum

theorem mem_of_fragment? {doc : Document} {name : String} {sels : List Selection}
    (h : doc.fragment? name = some sels) : ∃ c, Definition.fragment name c sels ∈ doc := by
  obtain ⟨d, hd, hsome⟩ := List.exists_of_findSome?_eq_some h
  cases d with
  | operation => simp at hsome
  | fragment n c found =>
    obtain ⟨rfl, rfl⟩ : n = name ∧ found = sels := by simpa using hsome
    exact ⟨c, List.mem_reverse.mp hd⟩

theorem selectionsSize_le_of_fragment? {doc : Document} {name : String} {sels : List Selection}
    (h : doc.fragment? name = some sels) : selectionsSize sels ≤ doc.size := by
  obtain ⟨c, hc⟩ := mem_of_fragment? h
  exact List.single_le_sum (fun _ _ => Nat.zero_le _) _
    (List.mem_map_of_mem (f := fun d : Definition => selectionsSize d.selections) hc)

/-- A selection that has still to be looked at. -/
structure Pending where
  spreading : List String
  parent : TypeDef
  path : FieldPath
  selection : Selection

namespace Pending

/-- Selections side by side. -/
def ofSelections (spreading : List String) (parent : TypeDef) (path : FieldPath)
    (sels : List Selection) : List Pending :=
  sels.map fun sel => ⟨spreading, parent, path, sel⟩

/-- The paths that are reported at once, and what has to be looked at instead. -/
def look (s : Schema) (doc : Document) (w : Pending) : List FieldPath × List Pending :=
  match w.selection with
  | .field _ name _ _ sels =>
    match w.parent.field? name with
    | none => ([], [])
    | some f =>
      match s.objectOf? f with
      | none => ([w.path.child name], [])
      | some inner =>
        ([w.path.child name], ofSelections w.spreading inner (w.path.child name) sels)
  | .spread name _ =>
    if name ∈ w.spreading then ([], [])
    else
      match doc.fragment? name with
      | none => ([], [])
      | some sels => ([], ofSelections (name :: w.spreading) w.parent w.path sels)
  | .inline _ _ sels => ([], ofSelections w.spreading w.parent w.path sels)

/-- All paths of a pending selection. -/
def paths (s : Schema) (doc : Document) (w : Pending) : List FieldPath :=
  pathsOfSelection s doc w.spreading w.parent w.path w.selection

/-- A bound on the looks that a pending selection takes. -/
def weight (doc : Document) (w : Pending) : Nat :=
  w.selection.size * (doc.size + 1) ^ doc.idleFragments w.spreading

variable {s : Schema} {doc : Document} {w : Pending}

theorem weight_pos (doc : Document) (w : Pending) : 0 < w.weight doc :=
  Nat.mul_pos w.selection.size_pos (Nat.pow_pos (Nat.succ_pos _))

theorem flatMap_paths_ofSelections (spreading : List String) (parent : TypeDef) (path : FieldPath)
    (sels : List Selection) : (ofSelections spreading parent path sels).flatMap (paths s doc) =
      pathsOfSelections s doc spreading parent path sels := by
  induction sels with
  | nil => rw [pathsOfSelections]; rfl
  | cons sel sels ih =>
    rw [pathsOfSelections, ← ih]
    rfl

theorem sum_weight_ofSelections (spreading : List String) (parent : TypeDef) (path : FieldPath)
    (sels : List Selection) : ((ofSelections spreading parent path sels).map (weight doc)).sum =
      selectionsSize sels * (doc.size + 1) ^ doc.idleFragments spreading := by
  induction sels with
  | nil => simp [ofSelections, selectionsSize]
  | cons sel sels ih =>
    rw [selectionsSize, Nat.add_mul, ← ih]
    rfl

/-- A look loses no path. -/
theorem paths_eq_look (w : Pending) :
    w.paths s doc = (w.look s doc).1 ++ (w.look s doc).2.flatMap (paths s doc) := by
  obtain ⟨spreading, parent, path, sel⟩ := w
  cases sel with
  | field alias? name args directives sels =>
    cases hf : parent.field? name with
    | none => simp [paths, look, hf, pathsOfSelection_field_of_unknown hf]
    | some f =>
      cases hinner : s.objectOf? f with
      | none => simp [paths, look, hf, hinner, pathsOfSelection_field_of_leaf hf hinner]
      | some inner =>
        simp [paths, look, hf, hinner, pathsOfSelection_field_of_object hf hinner,
          flatMap_paths_ofSelections]
  | spread name directives =>
    by_cases hmem : name ∈ spreading
    · simp [paths, look, hmem, pathsOfSelection_spread_of_mem hmem]
    · cases h : doc.fragment? name with
      | none => simp [paths, look, h, pathsOfSelection_spread_of_undefined h]
      | some sels =>
        simp [paths, look, hmem, h, pathsOfSelection_spread_of_defined hmem h,
          flatMap_paths_ofSelections]
  | inline condition? directives sels =>
    simp [paths, look, pathsOfSelection_inline, flatMap_paths_ofSelections]

/-- The selections of a fragment that was idle weigh less than its spread. -/
theorem weight_fragment_lt {spreading : List String} {name : String} {sels : List Selection}
    (hmem : name ∉ spreading) (h : doc.fragment? name = some sels) :
    selectionsSize sels * (doc.size + 1) ^ doc.idleFragments (name :: spreading) <
      (doc.size + 1) ^ doc.idleFragments spreading := by
  have hidle : doc.idleFragments (name :: spreading) + 1 ≤ doc.idleFragments spreading :=
    idleFragments_lt h hmem
  calc selectionsSize sels * (doc.size + 1) ^ doc.idleFragments (name :: spreading)
      < (doc.size + 1) * (doc.size + 1) ^ doc.idleFragments (name :: spreading) :=
        Nat.mul_lt_mul_of_pos_right (Nat.lt_succ_of_le (selectionsSize_le_of_fragment? h))
          (Nat.pow_pos (Nat.succ_pos _))
    _ = (doc.size + 1) ^ (doc.idleFragments (name :: spreading) + 1) := by
        rw [Nat.pow_succ, Nat.mul_comm]
    _ ≤ (doc.size + 1) ^ doc.idleFragments spreading := Nat.pow_le_pow_right (Nat.succ_pos _) hidle

/-- A look takes something off the weight. -/
theorem weight_look_lt (s : Schema) (doc : Document) (w : Pending) :
    ((w.look s doc).2.map (weight doc)).sum < w.weight doc := by
  have hpos := w.weight_pos doc
  obtain ⟨spreading, parent, path, sel⟩ := w
  have hpow : 0 < (doc.size + 1) ^ doc.idleFragments spreading := Nat.pow_pos (Nat.succ_pos _)
  cases sel with
  | field alias? name args directives sels =>
    cases hf : parent.field? name with
    | none => simpa [look, hf] using hpos
    | some f =>
      cases hinner : s.objectOf? f with
      | none => simpa [look, hf, hinner] using hpos
      | some inner =>
        simp only [look, hf, hinner, sum_weight_ofSelections, weight, Selection.size]
        exact Nat.mul_lt_mul_of_pos_right (by omega) hpow
  | spread name directives =>
    by_cases hmem : name ∈ spreading
    · simpa [look, hmem] using hpos
    · cases h : doc.fragment? name with
      | none => simpa [look, hmem, h] using hpos
      | some sels =>
        simpa [look, hmem, h, sum_weight_ofSelections, weight, Selection.size] using
          weight_fragment_lt hmem h
  | inline condition? directives sels =>
    simp only [look, sum_weight_ofSelections, weight, Selection.size]
    exact Nat.mul_lt_mul_of_pos_right (by omega) hpow

end Pending

/-- The paths found so far, and what has still to be looked at, first things first. -/
structure Walk where
  found : List FieldPath
  pending : List Pending

namespace Walk

/-- Looks at the first pending selection. -/
def next (s : Schema) (doc : Document) (walk : Walk) : Walk :=
  match walk.pending with
  | [] => walk
  | w :: pending => ⟨walk.found ++ (w.look s doc).1, (w.look s doc).2 ++ pending⟩

/-- The paths found so far and those of all pending selections. -/
def paths (s : Schema) (doc : Document) (walk : Walk) : List FieldPath :=
  walk.found ++ walk.pending.flatMap (Pending.paths s doc)

def weight (doc : Document) (walk : Walk) : Nat := (walk.pending.map (Pending.weight doc)).sum

variable {s : Schema} {doc : Document}

theorem paths_next (walk : Walk) : (walk.next s doc).paths s doc = walk.paths s doc := by
  obtain ⟨found, pending⟩ := walk
  cases pending with
  | nil => rfl
  | cons w pending => simp [next, paths, w.paths_eq_look]

theorem weight_next_le (s : Schema) (doc : Document) (walk : Walk) :
    (walk.next s doc).weight doc ≤ walk.weight doc - 1 := by
  obtain ⟨found, pending⟩ := walk
  cases pending with
  | nil => simp [next, weight]
  | cons w pending =>
    have hlt := w.weight_look_lt s doc
    simp only [next, weight, List.map_append, List.map_cons, List.sum_append, List.sum_cons]
    omega

theorem eq_of_weight_eq_zero {walk : Walk} (h : walk.weight doc = 0) :
    walk = ⟨walk.paths s doc, []⟩ := by
  obtain ⟨found, pending⟩ := walk
  cases pending with
  | nil => simp [paths]
  | cons w pending =>
    have hpos := w.weight_pos doc
    simp only [weight, List.map_cons, List.sum_cons] at h
    omega

/-- After as many looks as it weighs a walk has nothing left to look at, and has found all its
paths. -/
theorem next_iterate {rounds : Nat} {walk : Walk} (h : walk.weight doc ≤ rounds) :
    (next s doc)^[rounds] walk = ⟨walk.paths s doc, []⟩ := by
  induction rounds generalizing walk with
  | zero => exact eq_of_weight_eq_zero (Nat.le_zero.mp h)
  | succ rounds ih =>
    have hnext := weight_next_le s doc walk
    rw [Function.iterate_succ_apply, ih (by omega), paths_next]

end Walk

/-- The selections of an operation with a defined root type. -/
def pendingOfDefinition (s : Schema) : Definition → List Pending
  | .operation op _ sels =>
    match s.rootType? op with
    | some root => Pending.ofSelections [] root (FieldPath.root op) sels
    | none => []
  | .fragment .. => []

/-- Nothing is found before the selections of the operations are looked at. -/
def walk (s : Schema) (doc : Document) : Walk := ⟨[], doc.flatMap (pendingOfDefinition s)⟩

/-- A bound on the looks that a document takes. -/
def greatestWalk (doc : Document) : Nat := doc.size * (doc.size + 1) ^ doc.fragmentNames.length

theorem idleFragments_nil (doc : Document) : doc.idleFragments [] = doc.fragmentNames.length := by
  simp [idleFragments, countUnused]

theorem flatMap_paths_pendingOfDefinition (s : Schema) (doc : Document) (d : Definition) :
    (pendingOfDefinition s d).flatMap (Pending.paths s doc) = pathsOfDefinition s doc d := by
  cases d with
  | fragment => rfl
  | operation op name? sels =>
    cases hroot : s.rootType? op with
    | none => simp [pendingOfDefinition, pathsOfDefinition, hroot]
    | some root =>
      simp only [pendingOfDefinition, pathsOfDefinition, hroot, Pending.flatMap_paths_ofSelections]

theorem paths_walk (s : Schema) (doc : Document) :
    (doc.walk s).paths s doc = doc.flatMap (pathsOfDefinition s doc) := by
  rw [Walk.paths, walk, List.nil_append, List.flatMap_assoc]
  exact List.flatMap_congr fun d _ => flatMap_paths_pendingOfDefinition s doc d

theorem sum_weight_pendingOfDefinition_le (s : Schema) (doc : Document) (d : Definition) :
    ((pendingOfDefinition s d).map (Pending.weight doc)).sum ≤
      selectionsSize d.selections * (doc.size + 1) ^ doc.fragmentNames.length := by
  cases d with
  | fragment => simp [pendingOfDefinition]
  | operation op name? sels =>
    rw [pendingOfDefinition]
    split
    · rw [Pending.sum_weight_ofSelections, idleFragments_nil]
      rfl
    · simp

theorem weight_walk_le (s : Schema) (doc : Document) :
    (doc.walk s).weight doc ≤ doc.greatestWalk := by
  have hall (ds : List Definition) :
      ((ds.flatMap (pendingOfDefinition s)).map (Pending.weight doc)).sum ≤
        (ds.map fun d => selectionsSize d.selections).sum *
          (doc.size + 1) ^ doc.fragmentNames.length := by
    induction ds with
    | nil => simp
    | cons d ds ih =>
      have hd := sum_weight_pendingOfDefinition_le s doc d
      simp only [List.flatMap_cons, List.map_append, List.sum_append, List.map_cons, List.sum_cons,
        Nat.add_mul]
      omega
  exact hall doc

/-- Every walk along a document ends, with all the paths that its operations select. -/
theorem walk_ends (s : Schema) (doc : Document) :
    (Walk.next s doc)^[doc.greatestWalk] (doc.walk s) =
      ⟨doc.flatMap (pathsOfDefinition s doc), []⟩ := by
  rw [Walk.next_iterate (weight_walk_le s doc), paths_walk]

end Document

end QueryPicker
