import Mathlib
import QueryPicker.Document.Token

/-!
# Reading written tokens

A text is its tokens with separators between them. This module says so without positions and without
the budget of brackets, and then shows that scanning finds exactly these tokens as long as the
budget lasts, and that text which is no token is always noticed.
-/

namespace QueryPicker

namespace Located

def isSeparator (c : Char) : Bool := (afterSeparator? .start c).isSome

def separators : List Char := [Char.ofNat 0xFEFF, '\r', '\t', ' ', ',', '\n']

/-- Whether a token has to start at the character. -/
def startsToken (c : Char) : Bool := !isSeparator c && c != '#'

theorem isSome_afterSeparator? (pos : Position) (c : Char) :
    (afterSeparator? pos c).isSome = isSeparator c := by
  unfold isSeparator afterSeparator?
  split_ifs <;> rfl

theorem mem_separators {c : Char} (h : isSeparator c = true) : c ∈ separators := by
  unfold isSeparator afterSeparator? at h
  split_ifs at h with h1 h2 h3 h4
  · rcases h1 with h1 | rfl
    · have hc : c = Char.ofNat 0xFEFF := by rw [← h1, Char.ofNat_toNat]
      simp [hc, separators]
    · decide
  · subst h2
    decide
  · rcases h3 with rfl | rfl <;> decide
  · subst h4
    decide
  · simp at h

/-- A class of characters that holds no separator and no comment mark starts tokens. -/
theorem startsToken_of_class {p : Char → Bool} (hp : (separators ++ ['#']).all (!p ·) = true)
    {c : Char} (hc : p c = true) : startsToken c = true := by
  have hnot : ∀ d ∈ separators ++ ['#'], p d = false := fun d hd => by
    simpa using List.all_eq_true.mp hp d hd
  by_contra hst
  have hmem : c ∈ separators ++ ['#'] := by
    by_cases hsep : isSeparator c = true
    · exact List.mem_append_left _ (mem_separators hsep)
    · have : c = '#' := by simpa [startsToken, hsep] using hst
      simp [this]
  rw [hnot c hmem] at hc
  exact absurd hc (by decide)

end Located

namespace Token

/-- The rest of a text, if it cannot continue a name, a number or the quotes of a string. -/
def Ends (rest : List Char) : Prop := ∀ c ∈ rest.head?, endsNumber c = true

def enders : List Char :=
  [' ', '\n', '\r', '\t', ',', '#', '!', '$', '(', ')', ':', '=', '@', '[', ']', '\x7b', '\x7d',
    '|', '&']

theorem mem_enders {c : Char} (h : endsNumber c = true) : c ∈ enders := by
  have hpunct : (punctuator? c).isSome = true → c ∈ enders := by
    unfold punctuator?
    split <;> simp [enders]
  simp only [endsNumber, Bool.or_eq_true, beq_iff_eq] at h
  rcases h with (((((rfl | rfl) | rfl) | rfl) | rfl) | rfl) | h
  all_goals first
    | exact hpunct h
    | decide

theorem ends_nil : Ends [] := by simp [Ends]

theorem ends_append {cs rest : List Char} (hcs : Ends cs) (hrest : Ends rest) :
    Ends (cs ++ rest) := by
  cases cs with
  | nil => exact hrest
  | cons c cs => simpa [Ends] using hcs

theorem ends_cons {c : Char} {cs : List Char} (h : endsNumber c = true) : Ends (c :: cs) := by
  simpa [Ends] using h

/-- A class of characters in which nothing ends a number stops before the rest. -/
theorem takeWhile_append_of_ends {p : Char → Bool} (hp : enders.all (!p ·) = true)
    {cs rest : List Char} (hcs : cs.all p = true) (hrest : Ends rest) :
    (cs ++ rest).takeWhile p = cs ∧ (cs ++ rest).dropWhile p = rest := by
  have hall : ∀ c ∈ cs, p c = true := by simpa using hcs
  rw [List.takeWhile_append_of_pos hall, List.dropWhile_append_of_pos hall]
  cases rest with
  | nil => simp
  | cons c rest =>
    have hmem := mem_enders (hrest c (by simp))
    have hc : p c = false := by simpa using List.all_eq_true.mp hp c hmem
    simp [hc]

theorem take?_of_ne {c : Char} {cs : List Char} (hdot : c ≠ '.') (hquote : c ≠ '"') :
    take? (c :: cs) =
      if isNameStart c then
        some (.name (c :: cs.takeWhile isNameChar), cs.dropWhile isNameChar)
      else if c.isDigit || c == '-' then
        (ofNumberText? (c :: cs.takeWhile (!endsNumber ·))).map fun token =>
          (token, cs.dropWhile (!endsNumber ·))
      else (punctuator? c).map fun p => (.punctuator p, cs) := by
  rw [take?.eq_def]
  split <;> simp_all

theorem take?_name {c : Char} {cs rest : List Char} (hc : isNameStart c = true)
    (hcs : cs.all isNameChar = true) (hrest : Ends rest) :
    take? (c :: cs ++ rest) = some (.name (c :: cs), rest) := by
  have hdot : c ≠ '.' := by rintro rfl; exact absurd hc (by decide)
  have hquote : c ≠ '"' := by rintro rfl; exact absurd hc (by decide)
  obtain ⟨htake, hdrop⟩ := takeWhile_append_of_ends (p := isNameChar) (by decide) hcs hrest
  rw [List.cons_append, take?_of_ne hdot hquote, if_pos hc, htake, hdrop]

/-- A whole text that is a name. -/
def isNameText : List Char → Bool
  | [] => false
  | c :: cs => isNameStart c && cs.all isNameChar

theorem isNameText_iff {name : List Char} : isNameText name = true ↔
    ∃ c cs, name = c :: cs ∧ isNameStart c = true ∧ cs.all isNameChar = true := by
  cases name with
  | nil => simp [isNameText]
  | cons c cs => simp [isNameText]

/-- The first characters of numbers. -/
def startsNumber (c : Char) : Bool := c.isDigit || c == '-'

theorem take?_number {c : Char} {cs rest : List Char} (hc : startsNumber c = true)
    (hcs : cs.all (!endsNumber ·) = true) (hrest : Ends rest) :
    take? (c :: cs ++ rest) = (ofNumberText? (c :: cs)).map fun token => (token, rest) := by
  have hdot : c ≠ '.' := by rintro rfl; exact absurd hc (by decide)
  have hquote : c ≠ '"' := by rintro rfl; exact absurd hc (by decide)
  have hname : ¬ isNameStart c = true := by
    intro hn
    simp only [startsNumber, Bool.or_eq_true, beq_iff_eq] at hc
    rcases hc with hc | rfl
    · simp only [Char.isDigit, isNameStart, Char.isAlpha, Char.isUpper, Char.isLower,
        Bool.or_eq_true, Bool.and_eq_true, decide_eq_true_eq, beq_iff_eq, ge_iff_le,
        UInt32.le_iff_toNat_le] at hc hn
      rcases hn with (hn | hn) | rfl
      · have h1 := hn.1
        have h2 := hc.2
        simp at h1 h2
        omega
      · have h1 := hn.1
        have h2 := hc.2
        simp at h1 h2
        omega
      · exact absurd hc (by decide)
    · exact absurd hn (by decide)
  obtain ⟨htake, hdrop⟩ :=
    takeWhile_append_of_ends (p := (!endsNumber ·)) (by decide) hcs hrest
  have hstart : (c.isDigit || c == '-') = true := hc
  rw [List.cons_append, take?_of_ne hdot hquote, if_neg hname, if_pos hstart, htake, hdrop]

theorem take?_punctuator (p : Punctuator) (rest : List Char) :
    take? (p.text ++ rest) = some (.punctuator p, rest) := by
  cases p <;> rfl

/-- A string in quotes, if its text ends where it should and no quote follows the last. -/
theorem take?_string {raw rest : List Char} (hraw : stringEnd? false (raw ++ '"' :: rest) =
    some (raw, rest)) (hrest : Ends rest) :
    take? ('"' :: raw ++ '"' :: rest) = some (.string raw, rest) := by
  have hthree : ∀ cs, raw ++ '"' :: rest ≠ '"' :: '"' :: cs := by
    intro cs heq
    cases raw with
    | nil =>
      obtain ⟨-, rfl⟩ := List.cons.inj heq
      exact absurd (hrest '"' (by simp)) (by decide)
    | cons c raw =>
      obtain ⟨rfl, -⟩ := List.cons.inj heq
      simp [stringEnd?] at hraw
  rw [take?.eq_def]
  split
  · simp_all
  · simp_all
  · rename_i cs heq
    exact absurd (List.cons.inj heq).2 (hthree cs)
  · rename_i cs _ heq
    obtain rfl : raw ++ '"' :: rest = cs := (List.cons.inj heq).2
    rw [hraw]
    rfl
  · rename_i hquote heq
    obtain ⟨rfl, rfl⟩ := List.cons.inj heq
    simp_all

/-- The levels that are left after tokens, if they never run out. -/
def levelsAfterAll? (levels : Nat) : List Token → Option Nat
  | [] => some levels
  | t :: ts => (t.levelsAfter? levels).bind fun levels => levelsAfterAll? levels ts

theorem levelsAfterAll?_append (levels : Nat) (ts us : List Token) :
    levelsAfterAll? levels (ts ++ us) =
      (levelsAfterAll? levels ts).bind fun levels => levelsAfterAll? levels us := by
  induction ts generalizing levels with
  | nil => rfl
  | cons t ts ih => simp only [List.cons_append, levelsAfterAll?, ih, Option.bind_assoc]

end Token

namespace Located

/-- A text as tokens, and what stands after the last of them. -/
inductive Reads : List Char → List Token → Lexeme → Prop where
  | finish : Reads [] [] .finish
  | junk {c cs} : startsToken c = true → Token.take? (c :: cs) = none → Reads (c :: cs) [] .junk
  | skip {c cs ts last} : isSeparator c = true → Reads cs ts last → Reads (c :: cs) ts last
  | token {c cs t rest ts last} : startsToken c = true → Token.take? (c :: cs) = some (t, rest) →
      Reads rest ts last → Reads (c :: cs) (t :: ts) last

variable {cs : List Char} {ts : List Token} {last : Lexeme}

theorem afterSeparator?_eq_none {c : Char} (h : startsToken c = true) (pos : Position) :
    afterSeparator? pos c = none ∧ c ≠ '#' := by
  have hc : isSeparator c = false ∧ c ≠ '#' := by simpa [startsToken] using h
  rw [← isSome_afterSeparator? pos c] at hc
  exact ⟨by simpa using hc.1, hc.2⟩

theorem scan_skip {c : Char} (h : isSeparator c = true) (levels : Nat) (pos : Position)
    (cs : List Char) : ∃ pos', scan levels pos (c :: cs) = scan levels pos' cs := by
  rw [← isSome_afterSeparator? pos c] at h
  obtain ⟨pos', hpos⟩ := Option.isSome_iff_exists.mp h
  refine ⟨pos', ?_⟩
  rw [scan, hpos]

theorem scan_junk {c : Char} (h : startsToken c = true) (htake : Token.take? (c :: cs) = none)
    (levels : Nat) (pos : Position) : scan levels pos (c :: cs) = [⟨pos, .junk⟩] := by
  obtain ⟨hsep, hhash⟩ := afterSeparator?_eq_none h pos
  rw [scan, hsep]
  dsimp only
  rw [if_neg hhash]
  split <;> simp_all

theorem scan_token {c : Char} {t : Token} {rest : List Char} (h : startsToken c = true)
    (htake : Token.take? (c :: cs) = some (t, rest)) (levels : Nat) (pos : Position) :
    scan levels pos (c :: cs) =
      match t.levelsAfter? levels with
      | none => [⟨pos, .junk⟩]
      | some levels => ⟨pos, .token t⟩ :: scan levels (pos.advance t.text) rest := by
  obtain ⟨hsep, hhash⟩ := afterSeparator?_eq_none h pos
  rw [scan, hsep]
  dsimp only
  rw [if_neg hhash]
  split
  · rename_i hnone
    rw [htake] at hnone
    cases hnone
  · rename_i found after hsome
    rw [htake] at hsome
    obtain ⟨rfl, rfl⟩ := Prod.mk.inj (Option.some.inj hsome)
    rfl

/-- Scanning finds the tokens of a text as long as the brackets stay within the budget. -/
theorem scan_of_reads (h : Reads cs ts last) (levels : Nat) (pos : Position)
    (hlevels : (Token.levelsAfterAll? levels ts).isSome = true) :
    (scan levels pos cs).map (·.lexeme) = ts.map .token ++ [last] := by
  induction h generalizing levels pos with
  | finish => simp [scan]
  | junk hc htake => simp [scan_junk hc htake]
  | skip hc _ ih =>
    obtain ⟨pos', hscan⟩ := scan_skip hc levels pos _
    rw [hscan, ih levels pos' hlevels]
  | @token c cs t rest ts last hc htake _ ih =>
    rw [scan_token hc htake]
    simp only [Token.levelsAfterAll?] at hlevels
    cases hafter : t.levelsAfter? levels with
    | none => simp [hafter] at hlevels
    | some after =>
      rw [hafter, Option.bind_some] at hlevels
      simp [ih after _ hlevels]

/-- Text that is no token is noticed whatever the budget: it may run out earlier. -/
theorem scan_of_reads_junk (h : Reads cs ts last) (hlast : last = .junk) (levels : Nat)
    (pos : Position) : ∃ found place, scan levels pos cs = found ++ [⟨place, .junk⟩] := by
  induction h generalizing levels pos with
  | finish => cases hlast
  | junk hc htake => exact ⟨[], pos, scan_junk hc htake levels pos⟩
  | skip hc _ ih =>
    obtain ⟨pos', hscan⟩ := scan_skip hc levels pos _
    rw [hscan]
    exact ih hlast levels pos'
  | @token c cs t rest ts last hc htake _ ih =>
    rw [scan_token hc htake]
    cases t.levelsAfter? levels with
    | none => exact ⟨[], pos, rfl⟩
    | some after =>
      obtain ⟨found, place, hscan⟩ := ih hlast after (pos.advance t.text)
      exact ⟨⟨pos, .token t⟩ :: found, place, by simp [hscan]⟩

theorem reads_name {name rest : List Char} (hname : Token.isNameText name = true)
    (hends : Token.Ends rest) (h : Reads rest ts last) :
    Reads (name ++ rest) (.name name :: ts) last := by
  obtain ⟨c, cs, rfl, hc, hcs⟩ := Token.isNameText_iff.mp hname
  exact .token (startsToken_of_class (by decide) hc) (Token.take?_name hc hcs hends) h

theorem reads_number {c : Char} {cs rest : List Char} {t : Token}
    (hc : Token.startsNumber c = true) (hcs : cs.all (!Token.endsNumber ·) = true)
    (hends : Token.Ends rest) (ht : Token.ofNumberText? (c :: cs) = some t)
    (h : Reads rest ts last) : Reads (c :: cs ++ rest) (t :: ts) last := by
  have htake : Token.take? (c :: cs ++ rest) = some (t, rest) := by
    rw [Token.take?_number hc hcs hends, ht]
    rfl
  exact .token (startsToken_of_class (by decide) hc) htake h

theorem reads_badNumber {c : Char} {cs rest : List Char} (hc : Token.startsNumber c = true)
    (hcs : cs.all (!Token.endsNumber ·) = true) (hends : Token.Ends rest)
    (ht : Token.ofNumberText? (c :: cs) = none) : Reads (c :: cs ++ rest) [] .junk := by
  have htake : Token.take? (c :: cs ++ rest) = none := by
    rw [Token.take?_number hc hcs hends, ht]
    rfl
  exact .junk (startsToken_of_class (by decide) hc) htake

theorem reads_punctuator (p : Punctuator) {rest : List Char} (h : Reads rest ts last) :
    Reads (p.text ++ rest) (.punctuator p :: ts) last := by
  have htake := Token.take?_punctuator p rest
  cases p <;> exact .token (by decide) htake h

end Located

end QueryPicker
