import Mathlib
import QueryPicker.Proofs.Lexing
import QueryPicker.Selection.Literal

/-!
# Numbers as tokens

Which texts are read as numbers: whole parts, fractions and exponents. The text of every integer is
read, and so is that of every finite number whose decimal exponent does not start with a nine, which
the tokens of a document do not admit.
-/

namespace QueryPicker

namespace Token

theorem splitLast?_append {p : Char → Bool} {before after : List Char} {c : Char}
    (hc : p c = true) (hafter : after.all (!p ·) = true) :
    splitLast? p (before ++ c :: after) = some (before, after) := by
  have hall : ∀ d ∈ after.reverse, (!p d) = true := fun d hd =>
    List.all_eq_true.mp hafter d (List.mem_reverse.mp hd)
  simp only [splitLast?, List.span_eq_takeWhile_dropWhile, List.reverse_append,
    List.reverse_cons, List.append_assoc, List.singleton_append]
  rw [List.takeWhile_append_of_pos hall, List.dropWhile_append_of_pos hall]
  simp [hc]

theorem splitLast?_eq_none {p : Char → Bool} {cs : List Char} (h : cs.all (!p ·) = true) :
    splitLast? p cs = none := by
  have hdrop : cs.reverse.dropWhile (!p ·) = [] := by
    apply List.dropWhile_eq_nil_iff.mpr
    intro d hd
    exact List.all_eq_true.mp h d (List.mem_reverse.mp hd)
  simp only [splitLast?, List.span_eq_takeWhile_dropWhile, hdrop]

/-- A whole part without its sign. -/
def isWhole (ds : List Char) : Bool :=
  areDigits ds && (ds == ['0'] || ds.head? != some '0')

/-- A minus sign or nothing. -/
def sign (negative : Bool) : List Char := if negative then ['-'] else []

theorem isIntText_sign {ds : List Char} (h : isWhole ds = true) (negative : Bool) :
    isIntText (sign negative ++ ds) = true := by
  simp only [isWhole, Bool.and_eq_true, Bool.or_eq_true] at h
  cases negative with
  | true =>
    simp only [sign, if_true, List.cons_append, List.nil_append, isIntText, h.1, Bool.true_and]
    simpa using h.2
  | false =>
    cases ds with
    | nil => simp [areDigits] at h
    | cons d ds =>
      have hd : d ≠ '-' := by
        rintro rfl
        simp [areDigits, show ('-').isDigit = false by decide] at h
      simp only [sign, Bool.false_eq_true, if_false, List.nil_append, isIntText]
      split
      · simp_all
      · rw [h.1, Bool.true_and]
        simpa using h.2

/-- No digit and no sign is a point or the mark of an exponent. -/
theorem all_of_isWhole {ds : List Char} (h : isWhole ds = true) (negative : Bool) {p : Char → Bool}
    (hp : ∀ c, c.isDigit = true → p c = true) (hminus : p '-' = true) :
    (sign negative ++ ds).all p = true := by
  simp only [isWhole, areDigits, Bool.and_eq_true] at h
  have hds : ds.all p = true := by
    rw [List.all_eq_true] at h ⊢
    exact fun c hc => hp c (h.1.2 c hc)
  cases negative <;> simp [sign, hminus, hds]

theorem not_mark_of_isDigit {c : Char} (h : c.isDigit = true) :
    (c == '.') = false ∧ isExponentMark c = false ∧ endsNumber c = false := by
  refine ⟨?_, ?_, ?_⟩
  · by_contra hc
    obtain rfl : c = '.' := by simpa using hc
    exact absurd h (by decide)
  · by_contra hc
    have hc : c = 'e' ∨ c = 'E' := by
      rw [isExponentMark, Bool.not_eq_false, Bool.or_eq_true, beq_iff_eq, beq_iff_eq] at hc
      exact hc
    rcases hc with rfl | rfl <;> exact absurd h (by decide)
  · by_contra hc
    have hmem := mem_enders (by simpa using hc)
    have hnone : enders.all (fun d => !d.isDigit) = true := by decide
    simpa [h] using List.all_eq_true.mp hnone c hmem

theorem all_digits {ds : List Char} (h : areDigits ds = true) {p : Char → Bool}
    (hp : ∀ c, c.isDigit = true → p c = true) : ds.all p = true := by
  simp only [areDigits, Bool.and_eq_true, List.all_eq_true] at h ⊢
  exact fun c hc => hp c (h.2 c hc)

variable {whole fraction exponent : List Char}

theorem ofNumberText?_whole (h : isWhole whole = true) (negative : Bool) :
    ofNumberText? (sign negative ++ whole) = some (.int (sign negative ++ whole)) := by
  have hpoint := all_of_isWhole h negative (p := fun c => !(c == '.'))
    (fun c hc => by simp [not_mark_of_isDigit hc]) (by decide)
  have hmark := all_of_isWhole h negative (p := fun c => !isExponentMark c)
    (fun c hc => by simp [not_mark_of_isDigit hc]) (by decide)
  rw [ofNumberText?, splitLast?_eq_none hpoint]
  dsimp only
  rw [splitLast?_eq_none hmark]
  simp [isIntText_sign h]

theorem ofNumberText?_fraction (hw : isWhole whole = true) (hf : areDigits fraction = true)
    (negative : Bool) :
    ofNumberText? (sign negative ++ whole ++ '.' :: fraction) =
      some (.float (sign negative ++ whole ++ '.' :: fraction)) := by
  have hpoint := all_digits hf (p := fun c => !(c == '.'))
    (fun c hc => by simp [not_mark_of_isDigit hc])
  have hmark := all_digits hf (p := fun c => !isExponentMark c)
    (fun c hc => by simp [not_mark_of_isDigit hc])
  rw [ofNumberText?, splitLast?_append (p := (· == '.')) (by decide) hpoint]
  dsimp only
  rw [splitLast?_eq_none hmark]
  simp [isIntText_sign hw, hf]

/-- An exponent has no point and no mark of its own. -/
def isPlainExponent (cs : List Char) : Bool :=
  cs.all fun c => c.isDigit || c == '-'

theorem not_mark_of_isPlainExponent (h : isPlainExponent exponent = true) :
    exponent.all (fun c => !(c == '.')) = true ∧ exponent.all (fun c => !isExponentMark c) = true ∧
      exponent.all (fun c => !endsNumber c) = true := by
  have hall : ∀ c ∈ exponent, c.isDigit = true ∨ c = '-' := by
    simpa [isPlainExponent] using h
  refine ⟨?_, ?_, ?_⟩ <;>
    · rw [List.all_eq_true]
      intro c hc
      rcases hall c hc with hd | rfl
      · simp [not_mark_of_isDigit hd]
      · decide

theorem ofNumberText?_exponent (hw : isWhole whole = true)
    (he : isPlainExponent exponent = true) (negative : Bool) :
    ofNumberText? (sign negative ++ whole ++ 'e' :: exponent) =
      if isExponentText exponent then some (.float (sign negative ++ whole ++ 'e' :: exponent))
      else none := by
  have hpoint := all_of_isWhole hw negative (p := fun c => !(c == '.'))
    (fun c hc => by simp [not_mark_of_isDigit hc]) (by decide)
  obtain ⟨hepoint, hemark, -⟩ := not_mark_of_isPlainExponent he
  have hnone : (sign negative ++ whole ++ 'e' :: exponent).all (fun c => !(c == '.')) = true := by
    rw [List.all_append, hpoint, List.all_cons, hepoint]
    rfl
  rw [ofNumberText?, splitLast?_eq_none hnone]
  dsimp only
  rw [splitLast?_append (p := isExponentMark) (by decide) hemark]
  simp [isIntText_sign hw]

theorem ofNumberText?_fraction_exponent (hw : isWhole whole = true)
    (hf : areDigits fraction = true) (he : isPlainExponent exponent = true) (negative : Bool) :
    ofNumberText? (sign negative ++ whole ++ '.' :: (fraction ++ 'e' :: exponent)) =
      if isExponentText exponent then
        some (.float (sign negative ++ whole ++ '.' :: (fraction ++ 'e' :: exponent)))
      else none := by
  have hpoint := all_digits hf (p := fun c => !(c == '.'))
    (fun c hc => by simp [not_mark_of_isDigit hc])
  obtain ⟨hepoint, hemark, -⟩ := not_mark_of_isPlainExponent he
  have hnone : (fraction ++ 'e' :: exponent).all (fun c => !(c == '.')) = true := by
    rw [List.all_append, hpoint, List.all_cons, hepoint]
    rfl
  rw [ofNumberText?, splitLast?_append (p := (· == '.')) (by decide) hnone]
  dsimp only
  rw [splitLast?_append (p := isExponentMark) (by decide) hemark]
  simp [isIntText_sign hw, hf]

/-- The text starts as numbers do, and nothing in it ends a number. -/
def RunsAsNumber (cs : List Char) : Prop :=
  ∃ c rest, cs = c :: rest ∧ startsNumber c = true ∧ cs.all (!endsNumber ·) = true

theorem runsAsNumber_append (hw : isWhole whole = true) (negative : Bool) (after : List Char)
    (hafter : after.all (!endsNumber ·) = true) :
    RunsAsNumber (sign negative ++ whole ++ after) := by
  have hwhole := all_of_isWhole hw negative (p := fun c => !endsNumber c)
    (fun c hc => by simp [not_mark_of_isDigit hc]) (by decide)
  have hall : (sign negative ++ whole ++ after).all (!endsNumber ·) = true := by
    rw [List.all_append, hwhole, hafter]
    rfl
  cases negative with
  | true => exact ⟨'-', whole ++ after, rfl, by decide, hall⟩
  | false =>
    cases whole with
    | nil => simp [isWhole, areDigits] at hw
    | cons c whole =>
      have hc : c.isDigit = true := by
        simp only [isWhole, areDigits, List.all_cons, Bool.and_eq_true] at hw
        exact hw.1.2.1
      exact ⟨c, whole ++ after, rfl, by simp [startsNumber, hc], hall⟩

end Token

namespace Token

theorem areDigits_toDigits (n : Nat) : areDigits (Nat.toDigits 10 n) = true := by
  simp only [areDigits, Bool.and_eq_true, Bool.not_eq_true', List.isEmpty_eq_false_iff,
    List.all_eq_true]
  exact ⟨Nat.toDigits_ne_nil, fun c hc => Nat.isDigit_of_mem_toDigits (by decide) (by decide) hc⟩

theorem head_toDigits_ne_zero {n : Nat} (h : n ≠ 0) : (Nat.toDigits 10 n).head? ≠ some '0' := by
  induction n using Nat.strongRecOn with
  | ind n ih =>
    by_cases hlt : n < 10
    · rw [Nat.toDigits_of_lt_base hlt]
      interval_cases n <;> first | exact absurd rfl h | decide
    · have hdiv : n / 10 ≠ 0 := by omega
      rw [Nat.toDigits_of_base_le (by decide) (by omega),
        List.head?_append_of_ne_nil _ Nat.toDigits_ne_nil]
      exact ih (n / 10) (by omega) hdiv

theorem isWhole_toDigits (n : Nat) : isWhole (Nat.toDigits 10 n) = true := by
  rw [isWhole, areDigits_toDigits, Bool.true_and]
  by_cases h : n = 0
  · subst h
    decide
  · simp [head_toDigits_ne_zero h]

end Token

end QueryPicker
