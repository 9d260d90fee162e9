/-!
# Finite sets as sorted lists

A set is a list whose elements increase strictly.
-/

namespace QueryPicker.SortedSet

variable {α : Type} [LT α] [DecidableLT α] [DecidableEq α]

def insert (a : α) : List α → List α
  | [] => [a]
  | b :: bs => if a < b then a :: b :: bs else if a = b then b :: bs else b :: insert a bs

def ofList : List α → List α
  | [] => []
  | a :: as => insert a (ofList as)

theorem mem_insert {a x : α} {s : List α} : x ∈ insert a s ↔ x = a ∨ x ∈ s := by
  induction s with
  | nil => simp [insert]
  | cons b bs ih =>
    unfold insert
    split
    · simp
    · split
      · rename_i h; subst h; simp
      · rw [List.mem_cons, ih, List.mem_cons]
        constructor
        · rintro (h | h | h) <;> simp [h]
        · rintro (h | h | h) <;> simp [h]

theorem mem_ofList {x : α} {as : List α} : x ∈ ofList as ↔ x ∈ as := by
  induction as with
  | nil => simp [ofList]
  | cons a as ih => rw [ofList, mem_insert, ih, List.mem_cons]

end QueryPicker.SortedSet
