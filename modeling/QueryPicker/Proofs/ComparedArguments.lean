import Mathlib
import QueryPicker.Proofs.WrittenText

/-!
# Compared arguments

Arguments are compared by name and as values, so arguments that are the same need not be written
alike: their names may stand in another order, and of the two zeros one is written with a sign.
There is no other difference. Arguments that are the same, and whose names and texts agree one by
one, are equal.
-/

namespace QueryPicker

namespace Binary64

variable {x y : Binary64}

theorem toNat_of_isZero (h : x.isZero = true) :
    x.bits.toNat = if x.isNegative then Nat.pow 2 63 else 0 := by
  obtain ⟨hexponent, hfraction⟩ := Bool.and_eq_true_iff.mp h
  simp only [exponentField, fractionField, Nat.pow_eq, beq_iff_eq] at hexponent hfraction
  have hlt := x.bits.toNat_lt
  unfold isNegative
  simp only [Nat.pow_eq, decide_eq_true_iff]
  split <;> omega

/-- A zero is its sign. -/
theorem eq_of_isZero (hx : x.isZero = true) (hy : y.isZero = true)
    (hsign : x.isNegative = y.isNegative) : x = y := by
  have hbits : x.bits = y.bits := by
    apply UInt64.toNat_inj.mp
    rw [toNat_of_isZero hx, toNat_of_isZero hy, hsign]
  cases x
  cases y
  exact congrArg Binary64.mk hbits

theorem write_of_isZero (h : x.isZero = true) (layout : Layout) :
    (x.write layout).toList = Token.sign x.isNegative ++ ['0', '.', '0'] := by
  obtain ⟨hexponent, -⟩ := Bool.and_eq_true_iff.mp h
  have hne : x.exponentField ≠ 2047 := by
    rw [beq_iff_eq.mp hexponent]
    decide
  have hnan : x.isNaN = false := by simp [isNaN, hne]
  have hinfinite : x.isInfinite = false := by simp [isInfinite, hne]
  unfold write
  rw [hnan, hinfinite, h, if_neg Bool.false_ne_true, if_neg Bool.false_ne_true, if_pos rfl]
  cases x.isNegative <;> rfl

/-- Numbers that are the same number and are written alike are equal, whatever follows them. -/
theorem eq_of_sameNumber {layout : Layout} {rest rest' : List Char} (hsame : x.sameNumber y = true)
    (htext : (x.write layout).toList ++ rest = (y.write layout).toList ++ rest') : x = y := by
  obtain ⟨-, hbits⟩ := Bool.and_eq_true_iff.mp hsame
  rcases Bool.or_eq_true_iff.mp hbits with hbits | hzeros
  · cases x
    cases y
    exact congrArg Binary64.mk (beq_iff_eq.mp hbits)
  · obtain ⟨hx, hy⟩ := Bool.and_eq_true_iff.mp hzeros
    rw [write_of_isZero hx, write_of_isZero hy] at htext
    refine eq_of_isZero hx hy ?_
    cases hsign : x.isNegative <;> cases hsign' : y.isNegative <;>
      simp [hsign, hsign', Token.sign] at htext ⊢

end Binary64

namespace Literal

/-- Items as each follows another. -/
def separated (items : List Literal) : List Char :=
  items.flatMap fun item => ',' :: ' ' :: item.text.toList

theorem toList_text_list (item : Literal) (items : List Literal) :
    (list (item :: items)).text.toList =
      '[' :: (item.text.toList ++ (separated items ++ [']'])) := by
  rw [text, texts_eq, String.toList_append, String.toList_append, String.toList_intercalate,
    List.map_map, List.map_cons, intercalate_cons, List.flatMap_map]
  simp [separated]

mutual

/-- Literals that are the same and are written alike are equal, whatever follows them. -/
theorem eq_of_same : ∀ a b : Literal, a.same b = true → ∀ {rest rest' : List Char},
    a.text.toList ++ rest = b.text.toList ++ rest' → a = b ∧ rest = rest'
  | null, null, _ => fun htext => ⟨rfl, List.append_cancel_left htext⟩
  | bool a, bool b, hsame => by
    obtain rfl : a = b := beq_iff_eq.mp hsame
    exact fun htext => ⟨rfl, List.append_cancel_left htext⟩
  | int a, int b, hsame => by
    obtain rfl : a = b := beq_iff_eq.mp hsame
    exact fun htext => ⟨rfl, List.append_cancel_left htext⟩
  | float x, float y, hsame => by
    intro htext
    obtain rfl : x = y := Binary64.eq_of_sameNumber hsame htext
    exact ⟨rfl, List.append_cancel_left htext⟩
  | string a, string b, hsame => by
    obtain rfl : a = b := beq_iff_eq.mp hsame
    exact fun htext => ⟨rfl, List.append_cancel_left htext⟩
  | enumValue a, enumValue b, hsame => by
    obtain rfl : a = b := beq_iff_eq.mp hsame
    exact fun htext => ⟨rfl, List.append_cancel_left htext⟩
  | list [], list [], _ => fun htext => ⟨rfl, List.append_cancel_left htext⟩
  | list (a :: as), list (b :: bs), hsame => by
    intro htext
    obtain ⟨hfirst, hmore⟩ := Bool.and_eq_true_iff.mp hsame
    rw [toList_text_list, toList_text_list, List.cons_append, List.cons_append, List.append_assoc,
      List.append_assoc, List.append_assoc, List.append_assoc, List.cons.injEq] at htext
    obtain ⟨rfl, hmoreText⟩ := eq_of_same a b hfirst htext.2
    obtain ⟨rfl, hrest⟩ := eq_of_sameItems as bs hmore hmoreText
    exact ⟨rfl, List.append_cancel_left hrest⟩

theorem eq_of_sameItems : ∀ as bs : List Literal, sameItems as bs = true →
    ∀ {rest rest' : List Char}, separated as ++ rest = separated bs ++ rest' →
      as = bs ∧ rest = rest'
  | [], [], _ => fun htext => ⟨rfl, htext⟩
  | a :: as, b :: bs, hsame => by
    intro htext
    obtain ⟨hfirst, hmore⟩ := Bool.and_eq_true_iff.mp hsame
    simp only [separated, List.flatMap_cons, List.cons_append, List.append_assoc,
      List.cons.injEq, true_and] at htext
    obtain ⟨rfl, hmoreText⟩ := eq_of_same a b hfirst htext
    obtain ⟨rfl, hrest⟩ := eq_of_sameItems as bs hmore hmoreText
    exact ⟨rfl, hrest⟩

end

end Literal

namespace Arguments

/-- The arguments as they are written: the names in their order, each with the text of its value. -/
def written (args : Arguments) : List (String × String) :=
  args.map fun (name, value) => (name, value.text)

theorem eq_of_written {a b : Arguments} (hwritten : a.written = b.written)
    (hsame : ∀ name value other, (name, value) ∈ a → (name, other) ∈ b →
      value.same other = true) : a = b := by
  induction a generalizing b with
  | nil => exact (List.map_eq_nil_iff.mp hwritten.symm).symm
  | cons first a ih =>
    obtain ⟨name, value⟩ := first
    obtain _ | ⟨⟨name', other⟩, b⟩ := b
    · cases hwritten
    obtain ⟨hfirst, hmore⟩ := List.cons.inj hwritten
    obtain ⟨rfl, htext⟩ := Prod.mk.inj hfirst
    have hvalues : value.text.toList ++ [] = other.text.toList ++ [] :=
      congrArg (fun text : String => text.toList ++ []) htext
    obtain ⟨rfl, -⟩ := Literal.eq_of_same value other
      (hsame name value other List.mem_cons_self List.mem_cons_self) hvalues
    rw [ih hmore fun n v w hv hw =>
      hsame n v w (List.mem_cons_of_mem _ hv) (List.mem_cons_of_mem _ hw)]

/-- Arguments that are the same are equal if they are written alike. -/
theorem eq_of_same {a b : Arguments} (hnames : (b.map (·.1)).Nodup) (hsame : same a b = true)
    (hwritten : a.written = b.written) : a = b := by
  obtain ⟨-, hall⟩ := Bool.and_eq_true_iff.mp hsame
  refine eq_of_written hwritten fun name value other hvalue hother => ?_
  have hfound := List.all_eq_true.mp hall (name, value) hvalue
  simp only [Entries.get?_of_mem hnames hother] at hfound
  exact hfound

theorem eq_of_same? {a? b? : Option Arguments} (hnames : ((b?.getD []).map (·.1)).Nodup)
    (hsame : same? a? b? = true) (hwritten : (a?.getD []).written = (b?.getD []).written) :
    a? = b? := by
  cases a? <;> cases b?
  · rfl
  · cases hsame
  · cases hsame
  · exact congrArg some (eq_of_same hnames hsame hwritten)

/-- The same arguments in another order. -/
example :
    let a : Arguments := [("id", .int 1), ("all", .bool true)]
    let b : Arguments := [("all", .bool true), ("id", .int 1)]
    same a b = true ∧ a.written ≠ b.written := by
  decide +kernel

end Arguments

end QueryPicker
