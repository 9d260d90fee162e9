import Mathlib
import QueryPicker.Json.Reader
import QueryPicker.Proofs.GrammarReading

/-!
# Numbers in JSON text

A number ends where something stands that may follow a value, so it is read alike with or without
that. The digits of an integer of 64 bits are read as that integer, and all integers that are read
are of 64 bits.
-/

namespace QueryPicker.Json.Reader

variable {rest : Rest} {negative : Bool} {digits dropped : Nat} {start : Int} {x : Binary64}
  {n : JsonNumber} {i : Int} {cs r : List Char}

/-- What may stand behind a value: nothing, a comma or a closing bracket. -/
def Follows (rest : Rest) : Prop := ∀ c ∈ rest.head?, c = ',' ∨ c = ']' ∨ c = '\x7d'

theorem follows_nil : Follows [] := nofun

theorem Follows.cases (h : Follows rest) :
    rest = [] ∨ ∃ c more, rest = c :: more ∧ (c = ',' ∨ c = ']' ∨ c = '\x7d') := by
  cases rest with
  | nil => exact .inl rfl
  | cons c more => exact .inr ⟨c, more, rfl, h c rfl⟩

theorem takeWhile_isDigit_append (h : Follows rest) (cs : List Char) :
    (cs ++ rest).takeWhile Char.isDigit = cs.takeWhile Char.isDigit := by
  induction cs with
  | nil =>
    rcases h.cases with rfl | ⟨c, more, rfl, rfl | rfl | rfl⟩ <;> rfl
  | cons c cs ih => rw [List.cons_append, List.takeWhile_cons, List.takeWhile_cons, ih]

theorem dropWhile_isDigit_append (h : Follows rest) (cs : List Char) :
    (cs ++ rest).dropWhile Char.isDigit = cs.dropWhile Char.isDigit ++ rest := by
  induction cs with
  | nil =>
    rcases h.cases with rfl | ⟨c, more, rfl, rfl | rfl | rfl⟩ <;> rfl
  | cons c cs ih =>
    rw [List.cons_append, List.dropWhile_cons, List.dropWhile_cons, ih]
    split <;> rfl

theorem takeDigits_append (h : Follows rest) (value count : Nat) (cs : List Char) :
    takeDigits value count (cs ++ rest) = ((takeDigits value count cs).1,
      (takeDigits value count cs).2.1, (takeDigits value count cs).2.2 ++ rest) := by
  induction cs generalizing value count with
  | nil =>
    rcases h.cases with rfl | ⟨c, more, rfl, rfl | rfl | rfl⟩ <;> rfl
  | cons c cs ih =>
    rw [List.cons_append, takeDigits, takeDigits]
    split
    · exact ih _ _
    · rfl

/-- The exponent of a number after its sign. -/
def exponentDigits (negative : Bool) (digits : Nat) (start : Int) (negativeExponent : Bool)
    (cs : List Char) : Except JsonError (Binary64 × Rest) :=
  match cs with
  | [] => .error .endInValue
  | c :: _ =>
    if !c.isDigit then .error .invalidNumber
    else
      let exponent := (cs.takeWhile Char.isDigit).foldl (fun n c => n * 10 + digitValue c) 0
      let rest := cs.dropWhile Char.isDigit
      if Nat.pow 2 31 ≤ exponent then
        if digits ≠ 0 ∧ !negativeExponent then .ok (Binary64.infinity negative, rest)
        else .ok (Binary64.zero negative, rest)
      else
        let total : Int := if negativeExponent then start - exponent else start + exponent
        .ok (scaled negative digits total, rest)

theorem exponentTail_eq (cs : List Char) : exponentTail negative digits start cs =
    match cs with
    | '+' :: cs => exponentDigits negative digits start false cs
    | '-' :: cs => exponentDigits negative digits start true cs
    | cs => exponentDigits negative digits start false cs := by
  cases cs with
  | nil => rfl
  | cons c cs =>
    by_cases hplus : c = '+'
    · subst hplus
      rfl
    · by_cases hminus : c = '-'
      · subst hminus
        rfl
      · simp [exponentTail, exponentDigits, hplus, hminus]

theorem exponentDigits_append (hrest : Follows rest) {negativeExponent : Bool}
    (h : exponentDigits negative digits start negativeExponent cs = .ok (x, r)) :
    exponentDigits negative digits start negativeExponent (cs ++ rest) = .ok (x, r ++ rest) := by
  cases cs with
  | nil => cases h
  | cons c cs =>
    have htake := takeWhile_isDigit_append hrest (c :: cs)
    have hdrop := dropWhile_isDigit_append hrest (c :: cs)
    unfold exponentDigits at h ⊢
    rw [List.cons_append] at htake hdrop ⊢
    dsimp only at h ⊢
    rw [htake, hdrop]
    split_ifs at h ⊢ <;> cases h <;> rfl

theorem exponentTail_append (hrest : Follows rest)
    (h : exponentTail negative digits start cs = .ok (x, r)) :
    exponentTail negative digits start (cs ++ rest) = .ok (x, r ++ rest) := by
  rw [exponentTail_eq] at h ⊢
  cases cs with
  | nil => cases h
  | cons c cs =>
    by_cases hplus : c = '+'
    · subst hplus
      exact exponentDigits_append hrest h
    · by_cases hminus : c = '-'
      · subst hminus
        exact exponentDigits_append hrest h
      · rw [List.cons_append]
        simp [hplus, hminus] at h ⊢
        exact exponentDigits_append hrest h

theorem exponentOrEnd_other {c : Char} (hlower : c ≠ 'e') (hupper : c ≠ 'E') :
    exponentOrEnd negative digits start (c :: cs) =
      .ok (scaled negative digits start, c :: cs) := by
  simp [exponentOrEnd, hlower, hupper]

theorem exponentOrEnd_append (hrest : Follows rest)
    (h : exponentOrEnd negative digits start cs = .ok (x, r)) :
    exponentOrEnd negative digits start (cs ++ rest) = .ok (x, r ++ rest) := by
  cases cs with
  | nil =>
    cases h
    rcases hrest.cases with rfl | ⟨c, more, rfl, rfl | rfl | rfl⟩ <;> rfl
  | cons c cs =>
    by_cases hlower : c = 'e'
    · subst hlower
      exact exponentTail_append hrest h
    · by_cases hupper : c = 'E'
      · subst hupper
        exact exponentTail_append hrest h
      · rw [exponentOrEnd_other hlower hupper] at h
        cases h
        exact exponentOrEnd_other hlower hupper

theorem fractionTail_append (hrest : Follows rest)
    (h : fractionTail negative digits start cs = .ok (x, r)) :
    fractionTail negative digits start (cs ++ rest) = .ok (x, r ++ rest) := by
  cases cs with
  | nil => cases h
  | cons c cs =>
    have htake := takeDigits_append hrest digits 0 (c :: cs)
    unfold fractionTail at h ⊢
    rw [List.cons_append] at htake ⊢
    dsimp only at h ⊢
    rw [htake]
    dsimp only
    rw [dropWhile_isDigit_append hrest]
    split_ifs at h ⊢
    exact exponentOrEnd_append hrest h

theorem floatResult_append {before after : Except JsonError (Binary64 × Rest)}
    (hafter : ∀ x r, before = .ok (x, r) → after = .ok (x, r ++ rest))
    (h : floatResult before = .ok (n, r)) : floatResult after = .ok (n, r ++ rest) := by
  cases hbefore : before with
  | error e =>
    rw [hbefore] at h
    cases h
  | ok made =>
    obtain ⟨x, r'⟩ := made
    rw [hbefore] at h
    cases h
    rw [hafter x r hbefore]
    rfl

/-- A number without a point and an exponent. -/
def wholeNumber (negative : Bool) (digits : Nat) (dropped : Nat) (cs : List Char) :
    Except JsonError (JsonNumber × Rest) :=
  if dropped ≠ 0 then floatResult (exponentOrEnd negative digits dropped cs)
  else if !negative then .ok (.integer digits, cs)
  else if digits = 0 ∨ Nat.pow 2 63 < digits then
    .ok (.float (Binary64.ofRatio true digits 1), cs)
  else .ok (.integer (-(digits : Int)), cs)

theorem numberTail_other {c : Char} (hpoint : c ≠ '.') (hlower : c ≠ 'e') (hupper : c ≠ 'E') :
    numberTail negative digits dropped (c :: cs) =
      wholeNumber negative digits dropped (c :: cs) := by
  simp [numberTail, wholeNumber, hpoint, hlower, hupper]

theorem numberTail_of_follows (hrest : Follows rest) :
    numberTail negative digits dropped rest = wholeNumber negative digits dropped rest := by
  rcases hrest.cases with rfl | ⟨c, more, rfl, rfl | rfl | rfl⟩ <;> rfl

theorem wholeNumber_append (hrest : Follows rest)
    (h : wholeNumber negative digits dropped cs = .ok (n, r)) :
    wholeNumber negative digits dropped (cs ++ rest) = .ok (n, r ++ rest) := by
  unfold wholeNumber at h ⊢
  split_ifs at h ⊢
  · exact floatResult_append (fun _ _ => exponentOrEnd_append hrest) h
  all_goals
    cases h
    rfl

theorem numberTail_append (hrest : Follows rest)
    (h : numberTail negative digits dropped cs = .ok (n, r)) :
    numberTail negative digits dropped (cs ++ rest) = .ok (n, r ++ rest) := by
  cases cs with
  | nil =>
    rw [List.nil_append, numberTail_of_follows hrest]
    exact wholeNumber_append hrest h
  | cons c cs =>
    by_cases hpoint : c = '.'
    · subst hpoint
      exact floatResult_append (fun _ _ => fractionTail_append hrest) h
    · by_cases hlower : c = 'e'
      · subst hlower
        exact floatResult_append (fun _ _ => exponentTail_append hrest) h
      · by_cases hupper : c = 'E'
        · subst hupper
          exact floatResult_append (fun _ _ => exponentTail_append hrest) h
        · rw [numberTail_other hpoint hlower hupper] at h
          rw [List.cons_append, numberTail_other hpoint hlower hupper]
          exact wholeNumber_append hrest h

theorem number_zero (cs : List Char) : number negative ('0' :: cs) =
    if (cs.head?.map Char.isDigit).getD false then .error .invalidNumber
    else numberTail negative 0 0 cs := rfl

theorem number_other {c : Char} (hzero : c ≠ '0') : number negative (c :: cs) =
    if !c.isDigit then .error .invalidNumber
    else numberTail negative (takeDigits 0 0 (c :: cs)).1
      ((takeDigits 0 0 (c :: cs)).2.2.takeWhile Char.isDigit).length
      ((takeDigits 0 0 (c :: cs)).2.2.dropWhile Char.isDigit) := by
  simp [number]

theorem Follows.isDigit_head? (hrest : Follows rest) :
    (rest.head?.map Char.isDigit).getD false = false := by
  rcases hrest.cases with rfl | ⟨c, more, rfl, rfl | rfl | rfl⟩ <;> rfl

/-- A number that makes up a whole text is read alike at the front of a text. -/
theorem number_append (hrest : Follows rest) (h : number negative cs = .ok (n, r)) :
    number negative (cs ++ rest) = .ok (n, r ++ rest) := by
  cases cs with
  | nil => cases h
  | cons c cs =>
    by_cases hzero : c = '0'
    · subst hzero
      rw [number_zero] at h
      split_ifs at h with hdigit
      have hdigit' : ¬ ((cs ++ rest).head?.map Char.isDigit).getD false = true := by
        cases cs with
        | nil => exact ne_true_of_eq_false hrest.isDigit_head?
        | cons d cs => exact hdigit
      rw [List.cons_append, number_zero, if_neg hdigit']
      exact numberTail_append hrest h
    · have htake := takeDigits_append hrest 0 0 (c :: cs)
      rw [List.cons_append] at htake ⊢
      rw [number_other hzero] at h ⊢
      split_ifs at h ⊢
      rw [htake]
      dsimp only
      rw [takeWhile_isDigit_append hrest, dropWhile_isDigit_append hrest]
      exact numberTail_append hrest h

theorem le_foldl_digits (ds : List Char) (value : Nat) :
    value ≤ ds.foldl (fun n c => n * 10 + digitValue c) value := by
  induction ds generalizing value with
  | nil => exact le_rfl
  | cons d ds ih => exact le_trans (by omega) (ih (value * 10 + digitValue d))

/-- Digits whose value fits are all taken. -/
theorem takeDigits_fits {ds : List Char} (hds : ds.all Char.isDigit = true) {value : Nat}
    (hfits : ds.foldl (fun n c => n * 10 + digitValue c) value ≤ digitsMax) (count : Nat) :
    takeDigits value count ds =
      (ds.foldl (fun n c => n * 10 + digitValue c) value, count + ds.length, []) := by
  induction ds generalizing value count with
  | nil => rfl
  | cons d ds ih =>
    rw [List.all_cons, Bool.and_eq_true] at hds
    have hle := (le_foldl_digits ds (value * 10 + digitValue d)).trans hfits
    rw [takeDigits, if_pos (by simp [hds.1, hle]), ih hds.2 hfits, List.foldl_cons,
      List.length_cons]
    congr 2
    omega

theorem number_toDigits {n : Nat} (hn : n ≤ digitsMax) (negative : Bool) :
    number negative (Nat.toDigits 10 n) = wholeNumber negative n 0 [] := by
  by_cases hzero : n = 0
  · subst hzero
    rfl
  · have hdigits := Token.areDigits_toDigits n
    have hhead := Token.head_toDigits_ne_zero hzero
    have hvalue : (Nat.toDigits 10 n).foldl (fun n c => n * 10 + digitValue c) 0 = n :=
      Document.digitsValue_toDigits n
    generalize Nat.toDigits 10 n = ds at hdigits hhead hvalue
    rw [Token.areDigits, Bool.and_eq_true] at hdigits
    have htake := takeDigits_fits hdigits.2 (hvalue.symm ▸ hn) 0
    cases ds with
    | nil => simp at hdigits
    | cons d ds =>
      have hd : d.isDigit = true := (Bool.and_eq_true_iff.mp (List.all_cons ▸ hdigits.2)).1
      have hdzero : d ≠ '0' := by simpa using hhead
      rw [number_other hdzero, htake, hvalue, if_neg (by simp [hd])]
      rfl

theorem takeDigits_le {value : Nat} (h : value ≤ digitsMax) (count : Nat) (cs : List Char) :
    (takeDigits value count cs).1 ≤ digitsMax := by
  induction cs generalizing value count with
  | nil => exact h
  | cons c cs ih =>
    rw [takeDigits]
    split
    · rename_i hc
      exact ih (by simpa using (Bool.and_eq_true_iff.mp hc).2) _
    · exact h

theorem floatResult_ne_integer {result : Except JsonError (Binary64 × Rest)} :
    floatResult result ≠ .ok (.integer i, r) := by
  intro h
  cases result with
  | error e => cases h
  | ok made => cases h

theorem range_of_numberTail (hdigits : digits ≤ digitsMax)
    (h : numberTail negative digits dropped cs = .ok (.integer i, r)) :
    -2 ^ 63 ≤ i ∧ i < 2 ^ 64 := by
  have hmax : digitsMax = 2 ^ 64 - 1 := rfl
  unfold numberTail at h
  split at h
  · exact absurd h floatResult_ne_integer
  · exact absurd h floatResult_ne_integer
  · exact absurd h floatResult_ne_integer
  · split_ifs at h with hdropped hnegative hlarge
    · exact absurd h floatResult_ne_integer
    · cases h
      omega
    · cases h
    · cases h
      rw [Nat.pow_eq] at hlarge
      omega

theorem range_of_number (h : number negative cs = .ok (.integer i, r)) :
    -2 ^ 63 ≤ i ∧ i < 2 ^ 64 := by
  unfold number at h
  split at h
  · cases h
  · split_ifs at h
    exact range_of_numberTail (Nat.zero_le _) h
  · rename_i c cs _
    split_ifs at h
    exact range_of_numberTail (takeDigits_le (Nat.zero_le _) 0 (c :: cs)) h

end QueryPicker.Json.Reader
