import Mathlib
import QueryPicker.Document.Grammar
import QueryPicker.Proofs.NumberText

/-!
# The text of finite numbers

Laid out, the shortest decimal of a finite number has one of the shapes of a number. It is a token
of a document except when its exponent is written and starts with a nine, with which no exponent may
start there.
-/

namespace QueryPicker.Binary64

open Token

/-- Zero lies below the interval that rounds to the number. -/
theorem onGrid?_digits_ne_zero {tie : Tie} {m : Nat} {q : Int} {count : Nat} {d : Decimal}
    (hm : m ≠ 0) (h : onGrid? tie m q count = some d) : d.digits ≠ 0 := by
  unfold onGrid? at h
  simp only [Nat.pow_eq] at h
  generalize floorLog10 (m * 2 ^ q.toNat) (2 ^ (-q).toNat) + 1 - count = exponent at h
  generalize hlow : (if (decide (m = 2 ^ 52) && decide (-1074 < q)) = true then 4 * m - 1
    else 4 * m - 2) = low at h
  have hlow : 0 < low := by
    rw [← hlow]
    split_ifs <;> omega
  have hscale : 0 < low * (2 ^ q.toNat * 10 ^ (-exponent).toNat) := by positivity
  generalize low * (2 ^ q.toNat * 10 ^ (-exponent).toNat) = least at h hscale
  generalize (4 * m + 2) * (2 ^ q.toNat * 10 ^ (-exponent).toNat) = greatest at h
  generalize 4 * 10 ^ exponent.toNat * 2 ^ (-q).toNat = unit at h
  generalize 4 * m * (2 ^ q.toNat * 10 ^ (-exponent).toNat) / unit = below at h
  have hbelow : ¬ (if m % 2 = 0 then decide (least ≤ 0 * unit) && decide (0 * unit ≤ greatest)
      else decide (least < 0 * unit) && decide (0 * unit < greatest)) = true := by
    rw [Nat.zero_mul]
    split_ifs <;> simp; omega
  split at h
  · rename_i hwithin _
    have hne : below ≠ 0 := fun h0 => hbelow (h0 ▸ hwithin)
    cases h
    dsimp only
    split_ifs <;> omega
  · rename_i hwithin _
    have hne : below ≠ 0 := fun h0 => hbelow (h0 ▸ hwithin)
    cases h
    exact hne
  · cases h
    exact Nat.succ_ne_zero below
  · cases h

theorem stripZeros_digits_ne_zero {d : Decimal} (h : d.digits ≠ 0) (fuel : Nat) :
    (d.stripZeros fuel).digits ≠ 0 := by
  induction fuel generalizing d with
  | zero => exact h
  | succ fuel ih =>
    unfold Decimal.stripZeros
    split
    · rename_i hzero
      have hmod : d.digits % 10 = 0 := by simpa [h] using hzero
      have hdiv : d.digits / 10 ≠ 0 := by omega
      exact ih (d := ⟨d.digits / 10, d.exponent + 1⟩) hdiv
    · exact h

theorem shortest_digits_ne_zero {x : Binary64} (hzero : x.isZero = false) (tie : Tie) :
    (x.shortest tie).digits ≠ 0 := by
  have hm : x.parts.1 ≠ 0 := by
    unfold parts
    split
    · rename_i he
      simpa [isZero, he] using hzero
    · simp only [Nat.pow_eq]
      omega
  unfold shortest
  generalize x.parts = parts at hm ⊢
  obtain ⟨m, q⟩ := parts
  refine stripZeros_digits_ne_zero ?_ 18
  cases hfound : (List.range 17).findSome? fun n => onGrid? tie m q (n + 1) with
  | none => exact hm
  | some d =>
    obtain ⟨n, -, hn⟩ := List.exists_of_findSome?_eq_some hfound
    exact onGrid?_digits_ne_zero hm hn

/-- The texts of numbers, each with its exponent if one is written. -/
inductive Written : List Char → Option (List Char) → Prop where
  | fraction {whole fraction : List Char} (negative : Bool) : isWhole whole = true →
      areDigits fraction = true → Written (sign negative ++ whole ++ '.' :: fraction) none
  | exponent {whole exponent : List Char} (negative : Bool) : isWhole whole = true →
      isPlainExponent exponent = true → exponent.any Char.isDigit = true →
      Written (sign negative ++ whole ++ 'e' :: exponent) (some exponent)
  | both {whole fraction exponent : List Char} (negative : Bool) : isWhole whole = true →
      areDigits fraction = true → isPlainExponent exponent = true →
      exponent.any Char.isDigit = true →
      Written (sign negative ++ whole ++ '.' :: (fraction ++ 'e' :: exponent)) (some exponent)

variable {cs : List Char} {exponent? : Option (List Char)}

theorem ofNumberText?_of_written (h : Written cs exponent?) :
    ofNumberText? cs = if exponent?.all isExponentText then some (.float cs) else none := by
  cases h with
  | fraction negative hw hf => simpa using ofNumberText?_fraction hw hf negative
  | exponent negative hw he _ => exact ofNumberText?_exponent hw he negative
  | both negative hw hf he _ => exact ofNumberText?_fraction_exponent hw hf he negative

theorem hasExponentDigits_of_written (h : Written cs exponent?) :
    Document.hasExponentDigits cs = true := by
  cases h with
  | @fraction whole fraction negative hw hf =>
    have hwhole := all_of_isWhole hw negative (p := fun c => !isExponentMark c)
      (fun c hc => by simp [not_mark_of_isDigit hc]) (by decide)
    have hfraction := all_digits hf (p := fun c => !isExponentMark c)
      (fun c hc => by simp [not_mark_of_isDigit hc])
    have hnone : (sign negative ++ whole ++ '.' :: fraction).all (fun c => !isExponentMark c) =
        true := by
      rw [List.all_append, hwhole, List.all_cons, hfraction]
      rfl
    rw [Document.hasExponentDigits, splitLast?_eq_none hnone]
  | exponent negative hw he hdigit =>
    obtain ⟨-, hmark, -⟩ := not_mark_of_isPlainExponent he
    rw [Document.hasExponentDigits, splitLast?_append (p := isExponentMark) (by decide) hmark]
    exact hdigit
  | @both whole fraction exponent negative hw hf he hdigit =>
    obtain ⟨-, hmark, -⟩ := not_mark_of_isPlainExponent he
    rw [← List.cons_append, ← List.append_assoc, Document.hasExponentDigits,
      splitLast?_append (p := isExponentMark) (by decide) hmark]
    exact hdigit

theorem runsAsNumber_of_written (h : Written cs exponent?) : RunsAsNumber cs := by
  have hdigits : ∀ {ds : List Char}, areDigits ds = true → ds.all (!endsNumber ·) = true :=
    fun h => all_digits h (p := fun c => !endsNumber c)
      (fun c hc => by simp [not_mark_of_isDigit hc])
  cases h with
  | @fraction whole fraction negative hw hf =>
    refine runsAsNumber_append hw negative ('.' :: fraction) ?_
    rw [List.all_cons, hdigits hf]
    decide
  | @exponent whole exponent negative hw he _ =>
    obtain ⟨-, -, hend⟩ := not_mark_of_isPlainExponent he
    refine runsAsNumber_append hw negative ('e' :: exponent) ?_
    rw [List.all_cons, hend]
    decide
  | @both whole fraction exponent negative hw hf he _ =>
    obtain ⟨-, -, hend⟩ := not_mark_of_isPlainExponent he
    refine runsAsNumber_append hw negative ('.' :: (fraction ++ 'e' :: exponent)) ?_
    rw [List.all_cons, List.all_append, hdigits hf, List.all_cons, hend]
    decide

theorem toList_toString (n : Nat) : (toString n).toList = Nat.toDigits 10 n := by
  show n.repr.toList = _
  rw [Nat.repr, String.toList_ofList]

theorem isWhole_append {ds es : List Char} (hds : areDigits ds = true)
    (hhead : ds.head? ≠ some '0') (hes : es.all Char.isDigit = true) :
    isWhole (ds ++ es) = true := by
  simp only [areDigits, Bool.and_eq_true, Bool.not_eq_true', List.isEmpty_eq_false_iff] at hds
  simp only [isWhole, areDigits, Bool.and_eq_true, Bool.or_eq_true, bne_iff_ne, List.all_append,
    hds.2, hes, List.head?_append_of_ne_nil _ hds.1, Bool.not_eq_true', List.isEmpty_eq_false_iff]
  exact ⟨⟨List.append_ne_nil_of_left_ne_nil hds.1 es, trivial, trivial⟩, Or.inr hhead⟩

theorem all_isDigit_replicate (n : Nat) : (List.replicate n '0').all Char.isDigit = true := by
  rw [List.all_eq_true]
  intro c hc
  rw [(List.mem_replicate.mp hc).2]
  decide

/-- Some of the first digits, when there are more. -/
theorem isWhole_take {ds : List Char} {count : Nat} (hall : ds.all Char.isDigit = true)
    (hhead : ds.head? ≠ some '0') (hpos : 0 < count) (hlt : count < ds.length) :
    isWhole (ds.take count) = true := by
  obtain ⟨c, rest, rfl⟩ := List.exists_cons_of_length_pos (l := ds) (by omega)
  obtain ⟨n, rfl⟩ : ∃ n, count = n + 1 := ⟨count - 1, by omega⟩
  rw [List.all_cons, Bool.and_eq_true] at hall
  rw [List.take_succ_cons]
  have hc : areDigits [c] = true := by simp [areDigits, hall.1]
  apply isWhole_append hc hhead
  apply List.all_eq_true.mpr
  intro e he
  exact List.all_eq_true.mp hall.2 e (List.mem_of_mem_take he)

theorem areDigits_drop {ds : List Char} {count : Nat} (hall : ds.all Char.isDigit = true)
    (hlt : count < ds.length) : areDigits (ds.drop count) = true := by
  simp only [areDigits, Bool.and_eq_true, Bool.not_eq_true', List.isEmpty_eq_false_iff]
  constructor
  · simpa using hlt
  · apply List.all_eq_true.mpr
    intro e he
    exact List.all_eq_true.mp hall e (List.mem_of_mem_drop he)

theorem areDigits_replicate_append {ds : List Char} (hdigits : areDigits ds = true) (n : Nat) :
    areDigits (List.replicate n '0' ++ ds) = true := by
  simp only [areDigits, Bool.and_eq_true, Bool.not_eq_true',
    List.isEmpty_eq_false_iff] at hdigits ⊢
  constructor
  · exact List.append_ne_nil_of_right_ne_nil _ hdigits.1
  · rw [List.all_append, all_isDigit_replicate, hdigits.2]
    rfl

theorem written_positional {d : Decimal} (hd : d.digits ≠ 0) (negative : Bool) :
    Written (sign negative ++ d.positional.toList) none := by
  have hdigits := areDigits_toDigits d.digits
  have hhead := head_toDigits_ne_zero hd
  have hall : (Nat.toDigits 10 d.digits).all Char.isDigit = true := by
    simp only [areDigits, Bool.and_eq_true] at hdigits
    exact hdigits.2
  have hlength : (toString d.digits).length = (Nat.toDigits 10 d.digits).length := by
    rw [← String.length_toList, toList_toString]
  unfold Decimal.positional
  dsimp only
  rw [hlength]
  generalize hds : Nat.toDigits 10 d.digits = ds at hdigits hhead hall
  split_ifs with hexponent hinside
  · have hwhole := isWhole_append hdigits hhead (all_isDigit_replicate d.exponent.toNat)
    have hzero : areDigits ['0'] = true := by decide
    simpa [toList_toString, hds, zeros] using Written.fraction negative hwhole hzero
  · generalize hcount : ((ds.length : Int) + d.exponent).toNat = count
    have hpos : 0 < count := by omega
    have hlt : count < ds.length := by omega
    have hwhole := isWhole_take hall hhead hpos hlt
    have hfraction := areDigits_drop hall hlt
    simpa [toList_toString, hds] using Written.fraction negative hwhole hfraction
  · generalize (-d.exponent - (ds.length : Int)).toNat = n
    have hfraction := areDigits_replicate_append hdigits n
    have hzero : isWhole ['0'] = true := by decide
    simpa [toList_toString, hds, zeros] using Written.fraction negative hzero hfraction

/-- The decimal exponent of the first digit. -/
def Decimal.leading (d : Decimal) : Int := d.exponent + (toString d.digits).length - 1

def exponentText (e : Int) : List Char :=
  if e < 0 then '-' :: Nat.toDigits 10 (-e).toNat else Nat.toDigits 10 e.toNat

theorem isPlainExponent_exponentText (e : Int) :
    isPlainExponent (exponentText e) = true ∧ (exponentText e).any Char.isDigit = true := by
  have hplain : ∀ n, isPlainExponent (Nat.toDigits 10 n) = true := fun n =>
    all_digits (areDigits_toDigits n) (fun c hc => by simp [hc])
  have hany : ∀ n, (Nat.toDigits 10 n).any Char.isDigit = true := by
    intro n
    obtain ⟨c, hc⟩ := List.exists_mem_of_ne_nil _ (Nat.toDigits_ne_nil (n := n) (b := 10))
    have hall := areDigits_toDigits n
    simp only [areDigits, Bool.and_eq_true, List.all_eq_true] at hall
    exact List.any_eq_true.mpr ⟨c, hc, hall.2 c hc⟩
  unfold exponentText
  split_ifs
  · refine ⟨?_, ?_⟩
    · rw [isPlainExponent, List.all_cons]
      exact Bool.and_eq_true_iff.mpr ⟨by decide, hplain _⟩
    · rw [List.any_cons, hany, Bool.or_true]
  · exact ⟨hplain _, hany _⟩

theorem written_scientific {d : Decimal} (hd : d.digits ≠ 0) (negative : Bool) :
    Written (sign negative ++ (d.scientific Literal.floatLayout).toList)
      (some (exponentText d.leading)) := by
  obtain ⟨hplain, hdigit⟩ := isPlainExponent_exponentText d.leading
  have htext : (if d.leading < 0 then "e-" ++ toString (-d.leading).toNat
      else "e" ++ toString d.leading.toNat).toList = 'e' :: exponentText d.leading := by
    unfold exponentText
    split_ifs <;> simp
  have hdigits := areDigits_toDigits d.digits
  have hhead := head_toDigits_ne_zero hd
  unfold Decimal.scientific
  dsimp only [Literal.floatLayout]
  rw [show d.exponent + (toString d.digits).length - 1 = d.leading from rfl,
    String.toList_append, String.toList_append, htext, toList_toString]
  obtain ⟨c, rest, hcons⟩ :=
    List.exists_cons_of_ne_nil (Nat.toDigits_ne_nil (n := d.digits) (b := 10))
  rw [hcons] at hdigits hhead ⊢
  simp only [areDigits, List.all_cons, Bool.and_eq_true] at hdigits
  have hc : areDigits [c] = true := by simp [areDigits, hdigits.2.1]
  have hwhole : isWhole [c] = true := isWhole_append hc hhead rfl
  cases rest with
  | nil => simpa using Written.exponent negative hwhole hplain hdigit
  | cons r rest =>
    have hfraction : areDigits (r :: rest) = true := by
      simp only [areDigits, Bool.and_eq_true]
      exact ⟨rfl, hdigits.2.2⟩
    simpa using Written.both negative hwhole hfraction hplain hdigit

def isFinite (x : Binary64) : Bool := x.exponentField != 2047

/-- Whether the text of a finite number is a token of a document. Sixteen digits and more are
written with an exponent, which may not start with a nine. -/
def isReadable (x : Binary64) : Bool :=
  let leading := (x.shortest .up).leading
  x.isZero || decide (leading < 16) || (toString leading.toNat).toList.head? != some '9'

theorem startsExponent_of_isDigit {c : Char} (hc : c.isDigit = true) (hzero : c ≠ '0') :
    (c == '+' || c == '-' || (decide ('1' ≤ c) && decide (c ≤ '8'))) = (some c != some '9') := by
  obtain ⟨hlow, hhigh⟩ := Char.isDigit_iff_toNat.mp hc
  have hofNat : c = Char.ofNat c.toNat := (Char.ofNat_toNat c).symm
  generalize c.toNat = n at hlow hhigh hofNat
  subst hofNat
  have : n ≠ 48 := by rintro rfl; exact hzero rfl
  change 48 ≤ n at hlow
  change n ≤ 57 at hhigh
  interval_cases n <;> first | contradiction | decide

theorem isExponentText_exponentText {e : Int} (h : e ≠ 0) :
    isExponentText (exponentText e) =
      (decide (e < 0) || (toString e.toNat).toList.head? != some '9') := by
  rw [toList_toString]
  unfold exponentText
  have hdigits := areDigits_toDigits e.toNat
  by_cases hneg : e < 0
  · have hrest := areDigits_toDigits (-e).toNat
    simp only [areDigits, Bool.and_eq_true] at hrest
    simp [hneg, isExponentText, hrest.2]
  · have hhead := head_toDigits_ne_zero (n := e.toNat) (by omega)
    obtain ⟨c, rest, hcons⟩ :=
      List.exists_cons_of_ne_nil (Nat.toDigits_ne_nil (n := e.toNat) (b := 10))
    rw [hcons] at hdigits hhead
    simp only [areDigits, List.all_cons, Bool.and_eq_true] at hdigits
    obtain ⟨-, hc, hrest⟩ := hdigits
    have hnonzero : c ≠ '0' := by simpa using hhead
    simp only [hneg, if_false, hcons, isExponentText, hrest, Bool.and_true, decide_false,
      Bool.false_or, List.head?_cons]
    exact startsExponent_of_isDigit hc hnonzero

theorem written_decimal {d : Decimal} (hd : d.digits ≠ 0) (negative : Bool) :
    ∃ exponent?, Written (sign negative ++ (d.write Literal.floatLayout).toList) exponent? ∧
      exponent?.all isExponentText =
        (decide (d.leading < 16) || (toString d.leading.toNat).toList.head? != some '9') := by
  have hwrite : d.write Literal.floatLayout =
      if -4 ≤ d.leading ∧ d.leading < 16 then d.positional
      else d.scientific Literal.floatLayout := by
    unfold Decimal.write
    simp only [Bool.and_eq_true, decide_eq_true_eq]
    rfl
  rw [hwrite]
  split_ifs with hpositional
  · exact ⟨none, written_positional hd negative, by simp [hpositional.2]⟩
  · refine ⟨_, written_scientific hd negative, ?_⟩
    rw [Option.all_some, isExponentText_exponentText (by omega)]
    by_cases hneg : d.leading < 0
    · simp [hneg, show d.leading < 16 by omega]
    · simp [hneg, show ¬ d.leading < 16 by omega]

theorem written_write {x : Binary64} (hfinite : x.isFinite = true) :
    ∃ exponent?, Written (x.write Literal.floatLayout).toList exponent? ∧
      exponent?.all isExponentText = x.isReadable := by
  have hne : x.exponentField ≠ 2047 := by simpa [isFinite] using hfinite
  have hsign : (if x.isNegative = true then "-" else "").toList = sign x.isNegative := by
    cases x.isNegative <;> rfl
  have hnan : x.isNaN = false := by simp [isNaN, hne]
  have hinfinite : x.isInfinite = false := by simp [isInfinite, hne]
  unfold write
  rw [hnan, hinfinite, if_neg Bool.false_ne_true, if_neg Bool.false_ne_true,
    String.toList_append, hsign]
  unfold isReadable
  cases hzero : x.isZero with
  | true =>
    rw [if_pos rfl]
    refine ⟨none, ?_, rfl⟩
    have hwritten : Written (sign x.isNegative ++ ['0'] ++ '.' :: ['0']) none :=
      Written.fraction x.isNegative (by decide) (by decide)
    rw [List.append_assoc] at hwritten
    exact hwritten
  | false =>
    rw [if_neg Bool.false_ne_true]
    exact written_decimal (shortest_digits_ne_zero hzero .up) x.isNegative

end QueryPicker.Binary64
