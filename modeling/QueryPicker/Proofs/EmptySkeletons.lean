import Mathlib
import QueryPicker.Proofs.FailedSteps
import QueryPicker.Proofs.Lexing
import QueryPicker.Proofs.ReachedPickers

/-!
# Texts that select nothing

A text is taken for an empty selection if it is nothing but empty operations once its blanks are
dropped. Blanks matter to the tokens in two ways: some are no separators, and one inside a word
makes two words of it. Apart from these a text taken for an empty selection is made of the tokens of
empty operations, so no other text that is no document replaces what is selected.
-/

namespace QueryPicker

namespace Token

/-- Operations without fields, one after the other. -/
inductive SelectNothing : List Token → Prop where
  | nil : SelectNothing []
  | bare {ts} : SelectNothing ts →
      SelectNothing (.punctuator .braceOpen :: .punctuator .braceClose :: ts)
  | operation (op : Operation) {ts} : SelectNothing ts → SelectNothing
      (.name op.keyword.toList :: .punctuator .braceOpen :: .punctuator .braceClose :: ts)

/-- The tokens that empty operations are made of. -/
def IsPlain (t : Token) : Prop :=
  t = .punctuator .braceOpen ∨ t = .punctuator .braceClose ∨ ∃ op : Operation,
    t = .name op.keyword.toList

def IsName (t : Token) : Prop := ∃ text, t = .name text

/-- After every name comes an opening brace. -/
def NamesOpen (ts : List Token) : Prop :=
  ts.IsChain fun t t' => t.IsName → t' = .punctuator .braceOpen

variable {t : Token} {ts : List Token}

theorem SelectNothing.levelsAfterAll? (h : SelectNothing ts) (levels : Nat) :
    levelsAfterAll? (levels + 1) ts = some (levels + 1) := by
  induction h with
  | nil => rfl
  | bare _ ih => exact ih
  | operation op _ ih => exact ih

theorem isPlain_keyword (op : Operation) : IsPlain (.name op.keyword.toList) :=
  Or.inr (Or.inr ⟨op, rfl⟩)

theorem SelectNothing.isPlain (h : SelectNothing ts) : ∀ t ∈ ts, t.IsPlain := by
  have hbraces {ts : List Token} (ih : ∀ t ∈ ts, t.IsPlain) :
      ∀ t ∈ .punctuator .braceOpen :: .punctuator .braceClose :: ts, t.IsPlain :=
    List.forall_mem_cons.mpr ⟨Or.inl rfl, List.forall_mem_cons.mpr ⟨Or.inr (Or.inl rfl), ih⟩⟩
  induction h with
  | nil => simp
  | bare _ ih => exact hbraces ih
  | operation op _ ih => exact List.forall_mem_cons.mpr ⟨isPlain_keyword op, hbraces ih⟩

theorem SelectNothing.namesOpen (h : SelectNothing ts) : NamesOpen ts := by
  have hbraces {ts : List Token} (ih : NamesOpen ts) :
      NamesOpen (.punctuator .braceOpen :: .punctuator .braceClose :: ts) := by
    refine .cons (.cons ih ?_) ?_
    · rintro t - ⟨text, ⟨⟩⟩
    · rintro t - ⟨text, ⟨⟩⟩
  induction h with
  | nil => exact .nil
  | bare _ ih => exact hbraces ih
  | operation op _ ih => exact .cons_cons (fun _ => rfl) (hbraces ih)

theorem IsPlain.not_isBlank (h : t.IsPlain) : ∀ c ∈ t.text, Text.isBlank c = false := by
  have hall : t.text.all (!Text.isBlank ·) = true := by
    rcases h with rfl | rfl | ⟨op, rfl⟩
    · decide
    · decide
    · cases op <;> decide
  simpa using hall

theorem IsPlain.isName (h : t.IsPlain) {c : Char} (hc : c ∈ t.text) (hname : isNameChar c = true) :
    t.IsName := by
  rcases h with rfl | rfl | ⟨op, rfl⟩
  · obtain rfl : c = '\x7b' := by simpa [text, Punctuator.text] using hc
    exact absurd hname (by decide)
  · obtain rfl : c = '\x7d' := by simpa [text, Punctuator.text] using hc
    exact absurd hname (by decide)
  · exact ⟨_, rfl⟩

end Token

namespace Located

open Token

/-- Blanks stand only between tokens: each is a separator, and none divide a name. -/
structure BlanksSeparate (cs : List Char) : Prop where
  separators : ∀ c ∈ cs, Text.isBlank c = true → isSeparator c = true
  undivided : ∀ front a blanks b back, cs = front ++ a :: (blanks ++ b :: back) →
    isNameChar a = true → isNameChar b = true → (∀ c ∈ blanks, Text.isBlank c = true) →
      blanks = []

variable {cs : List Char} {ts : List Token} {last : Lexeme}

theorem BlanksSeparate.of_append (front : List Char) {back : List Char}
    (h : BlanksSeparate (front ++ back)) : BlanksSeparate back where
  separators c hc := h.separators c (List.mem_append_right _ hc)
  undivided more a blanks b rest heq :=
    h.undivided (front ++ more) a blanks b rest (by rw [heq, List.append_assoc])

/-- A blank that is a separator ends a word. -/
theorem endsNumber_of_isBlank {c : Char} (hblank : Text.isBlank c = true)
    (hseparator : isSeparator c = true) : endsNumber c = true := by
  have hmem := mem_separators hseparator
  simp only [separators, List.mem_cons, List.not_mem_nil, or_false] at hmem
  rcases hmem with rfl | rfl | rfl | rfl | rfl | rfl
  · exact absurd hblank (by decide)
  all_goals decide

theorem reads_separators {before : List Char} (hbefore : ∀ c ∈ before, isSeparator c = true)
    (h : Reads cs ts last) : Reads (before ++ cs) ts last := by
  induction before with
  | nil => exact h
  | cons c before ih =>
    obtain ⟨hc, hbefore⟩ := List.forall_mem_cons.mp hbefore
    exact .skip hc (ih hbefore)

/-- A text without comments is read as its scan says. -/
theorem reads_of_scan {levels : Nat} {pos : Position} (hcomment : '#' ∉ cs)
    (h : (scan levels pos cs).map (·.lexeme) = ts.map .token ++ [.finish]) :
    Reads cs ts .finish := by
  induction hlength : cs.length using Nat.strong_induction_on generalizing cs ts levels pos with
  | _ n ih =>
  subst hlength
  cases cs with
  | nil =>
    obtain rfl : ts = [] := by simpa [scan] using h
    exact .finish
  | cons c cs =>
    obtain ⟨hc, hcs⟩ : '#' ≠ c ∧ '#' ∉ cs := by simpa using hcomment
    by_cases hseparator : isSeparator c = true
    · obtain ⟨pos', hscan⟩ := scan_skip hseparator levels pos cs
      rw [hscan] at h
      exact .skip hseparator (ih cs.length (Nat.lt_succ_self _) hcs h rfl)
    · have hstart : startsToken c = true := by simp [startsToken, hseparator, Ne.symm hc]
      cases htake : take? (c :: cs) with
      | none =>
        rw [scan_junk hstart htake] at h
        cases ts <;> simp at h
      | some found =>
        obtain ⟨t, rest⟩ := found
        have hrest : rest.length < (c :: cs).length := length_rest_lt htake
        rw [scan_token hstart htake] at h
        cases hlevels : t.levelsAfter? levels with
        | none =>
          rw [hlevels] at h
          cases ts <;> simp at h
        | some levels' =>
          rw [hlevels] at h
          cases ts with
          | nil => simp at h
          | cons u ts =>
            obtain ⟨hhead, htail⟩ := List.cons.inj h
            obtain rfl : t = u := by simpa using hhead
            refine .token hstart htake (ih rest.length hrest (fun hmem => hcomment ?_) htail rfl)
            rw [take?_eq htake]
            exact List.mem_append_right _ hmem

/-- What is read is separators and tokens. -/
theorem Reads.mem_text (h : Reads cs ts last) (hlast : last = .finish) :
    ∀ c ∈ cs, isSeparator c = true ∨ ∃ t ∈ ts, c ∈ t.text := by
  induction h with
  | finish => simp
  | junk => cases hlast
  | skip hc _ ih =>
    intro d hd
    rcases List.mem_cons.mp hd with rfl | hd
    · exact Or.inl hc
    · exact ih hlast d hd
  | @token c cs t rest ts last hc htake _ ih =>
    intro d hd
    rw [take?_eq htake, List.mem_append] at hd
    rcases hd with hd | hd
    · exact Or.inr ⟨t, List.mem_cons_self, hd⟩
    · refine (ih hlast d hd).imp_right ?_
      rintro ⟨t', ht', hd⟩
      exact ⟨t', List.mem_cons_of_mem _ ht', hd⟩

/-- A character of a name after separators belongs to the next token. -/
theorem Reads.exists_token {b : Char} {back : List Char} (hname : isNameChar b = true) :
    ∀ blanks : List Char, (∀ c ∈ blanks, isSeparator c = true) →
      Reads (blanks ++ b :: back) ts .finish → ∃ t ts', ts = t :: ts' ∧ b ∈ t.text
  | [], _, h => by
    have hstart : startsToken b = true := startsToken_of_class (by decide) hname
    cases h with
    | skip hb => simp [startsToken, hb] at hstart
    | token _ htake _ =>
      refine ⟨_, _, rfl, ?_⟩
      have heq := take?_eq htake
      have hne := text_ne_nil_of_take? htake
      obtain ⟨d, text, htext⟩ := List.exists_cons_of_ne_nil hne
      rw [htext, List.cons_append] at heq
      obtain ⟨rfl, -⟩ := List.cons.inj heq
      rw [htext]
      exact List.mem_cons_self
  | c :: blanks, hall, h => by
    obtain ⟨hc, hall⟩ := List.forall_mem_cons.mp hall
    cases h with
    | skip _ h => exact Reads.exists_token hname blanks hall h
    | token hstart _ _ => simp [startsToken, hc] at hstart

/-- The blanks between plain tokens are separators. -/
theorem Reads.isSeparator_of_isBlank (h : Reads cs ts last) (hlast : last = .finish)
    (hplain : ∀ t ∈ ts, t.IsPlain) : ∀ c ∈ cs, Text.isBlank c = true → isSeparator c = true := by
  intro c hc hblank
  rcases h.mem_text hlast c hc with hseparator | ⟨t, ht, hct⟩
  · exact hseparator
  · exact absurd hblank (by simp [(hplain t ht).not_isBlank c hct])

/-- After blanks a character of a name starts a name. -/
theorem Reads.exists_name {blanks back : List Char} {b : Char}
    (h : Reads (blanks ++ b :: back) ts .finish) (hplain : ∀ t ∈ ts, t.IsPlain)
    (hb : isNameChar b = true) (hblanks : ∀ c ∈ blanks, Text.isBlank c = true) :
    ∃ t ts', ts = t :: ts' ∧ t.IsName := by
  have hseparators : ∀ c ∈ blanks, isSeparator c = true := fun c hc =>
    h.isSeparator_of_isBlank rfl hplain c (List.mem_append_left _ hc) (hblanks c hc)
  obtain ⟨t, ts', rfl, hbt⟩ := Reads.exists_token hb blanks hseparators h
  exact ⟨t, ts', rfl, (hplain t List.mem_cons_self).isName hbt hb⟩

/-- Between the characters of a name that is read there are no blanks. -/
theorem Reads.undivided (h : Reads cs ts last) (hlast : last = .finish)
    (hplain : ∀ t ∈ ts, t.IsPlain) (hopen : NamesOpen ts)
    {front : List Char} {a : Char} {blanks : List Char} {b : Char} {back : List Char}
    (hcs : cs = front ++ a :: (blanks ++ b :: back)) (ha : isNameChar a = true)
    (hb : isNameChar b = true) (hblanks : ∀ c ∈ blanks, Text.isBlank c = true) : blanks = [] := by
  induction h generalizing front with
  | finish => simp at hcs
  | junk => cases hlast
  | @skip c cs ts last hc h ih =>
    cases front with
    | nil =>
      obtain ⟨rfl, -⟩ := List.cons.inj hcs
      have hstart : startsToken c = true := startsToken_of_class (by decide) ha
      simp [startsToken, hc] at hstart
    | cons d front => exact ih hlast hplain hopen (List.cons.inj hcs).2
  | @token c cs t rest ts last hc htake h ih =>
    obtain ⟨ht, hts⟩ := List.forall_mem_cons.mp hplain
    rw [take?_eq htake] at hcs
    rcases List.append_eq_append_iff.mp hcs with ⟨more, -, hrest⟩ | ⟨text, htext, hrest⟩
    · exact ih hlast hts hopen.tail hrest
    · cases text with
      | nil =>
        have hrest : rest = [] ++ a :: (blanks ++ b :: back) := hrest.symm
        exact ih hlast hts hopen.tail hrest
      | cons d text =>
        obtain ⟨rfl, hafter⟩ := List.cons.inj hrest
        have hat : a ∈ t.text := by simp [htext]
        cases blanks with
        | nil => rfl
        | cons blank blanks =>
          cases text with
          | cons d text =>
            obtain ⟨rfl, -⟩ := List.cons.inj hafter
            have hblank := hblanks blank List.mem_cons_self
            exact absurd hblank (by simp [ht.not_isBlank blank (by simp [htext])])
          | nil =>
            obtain rfl : rest = blank :: blanks ++ b :: back := hafter.symm
            subst hlast
            obtain ⟨u, us, rfl, name, hname⟩ := h.exists_name hts hb hblanks
            have hnext := (List.isChain_cons_cons.mp hopen).1 (ht.isName hat ha)
            rw [hname] at hnext
            cases hnext

/-- In a text with the tokens of empty operations blanks separate tokens. -/
theorem Reads.blanksSeparate (h : Reads cs ts .finish) (hts : SelectNothing ts) :
    BlanksSeparate cs where
  separators := h.isSeparator_of_isBlank rfl hts.isPlain
  undivided _ _ _ _ _ hcs ha hb hblanks :=
    h.undivided rfl hts.isPlain hts.namesOpen hcs ha hb hblanks

end Located

namespace QueryText

open Token Located

variable {cs : List Char}

/-- What is left of a text without its blanks. -/
def withoutBlanks (cs : List Char) : List Char := cs.filter fun c => !Text.isBlank c

/-- Skeletons start with one of an operation. -/
theorem areSkeletons_cases (h : areSkeletons cs = true) : cs = [] ∨ ∃ rest,
    areSkeletons rest = true ∧ (cs = '\x7b' :: '\x7d' :: rest ∨
      ∃ op : Operation, cs = op.keyword.toList ++ '\x7b' :: '\x7d' :: rest) := by
  cases cs with
  | nil => exact Or.inl rfl
  | cons c cs =>
    rw [areSkeletons] at h
    split at h
    · rename_i rest hafter
      refine Or.inr ⟨rest, h, ?_⟩
      obtain ⟨skeleton, hfind, hrest⟩ := Option.map_eq_some_iff.mp hafter
      have hstart := List.find?_some hfind
      obtain ⟨more, hmore⟩ := List.isPrefixOf_iff_prefix.mp hstart
      have hmem := List.mem_of_find?_eq_some hfind
      obtain rfl : more = rest := by rw [← hrest, ← hmore, List.drop_left]
      rw [← hmore]
      simp only [skeletons, List.mem_cons, List.not_mem_nil, or_false] at hmem
      rcases hmem with rfl | rfl | rfl | rfl
      · exact Or.inr ⟨.query, rfl⟩
      · exact Or.inr ⟨.mutation, rfl⟩
      · exact Or.inr ⟨.subscription, rfl⟩
      · exact Or.inl rfl
    · cases h

theorem not_comment_of_areSkeletons (h : areSkeletons cs = true) : '#' ∉ cs := by
  induction hlength : cs.length using Nat.strong_induction_on generalizing cs with
  | _ n ih =>
  subst hlength
  rcases areSkeletons_cases h with rfl | ⟨rest, hrest, rfl | ⟨op, rfl⟩⟩
  · simp
  · have hnot := ih rest.length (by simp) hrest rfl
    simpa using hnot
  · have hnot := ih rest.length (by simp; omega) hrest rfl
    have hkeyword : '#' ∉ op.keyword.toList := by cases op <;> decide
    simpa [hkeyword] using hnot

/-- Without blanks inside, a word that is left without its blanks stood there before. -/
theorem word_of_withoutBlanks {word rest : List Char} : ∀ {a : Char} {cs : List Char},
    BlanksSeparate (a :: cs) → (a :: word).all isNameChar = true →
      withoutBlanks cs = word ++ rest → ∃ cs', cs = word ++ cs' ∧ withoutBlanks cs' = rest := by
  induction word with
  | nil => exact fun {_ cs} _ _ h => ⟨cs, rfl, h⟩
  | cons b word ih =>
    intro a cs hblanks hword h
    obtain ⟨blanks, cs', rfl, hall, hb, hrest⟩ := List.filter_eq_cons_iff.mp h
    have hnil : blanks = [] :=
      hblanks.undivided [] a blanks b cs' rfl (by simp_all) (by simp_all) (by simpa using hall)
    subst hnil
    obtain ⟨cs'', rfl, hcs''⟩ := ih (hblanks.of_append [a]) (by simp_all) hrest
    exact ⟨cs'', rfl, hcs''⟩

/-- A keyword with nothing but blanks before it. -/
theorem keyword_of_withoutBlanks {op : Operation} {rest : List Char} (hblanks : BlanksSeparate cs)
    (h : withoutBlanks cs = op.keyword.toList ++ rest) : ∃ before cs',
      cs = before ++ (op.keyword.toList ++ cs') ∧ (∀ c ∈ before, Text.isBlank c = true) ∧
        withoutBlanks cs' = rest := by
  obtain ⟨first, word, hkeyword, hname⟩ : ∃ first word, op.keyword.toList = first :: word ∧
      (first :: word).all isNameChar = true := by
    cases op <;> exact ⟨_, _, rfl, by decide⟩
  rw [hkeyword] at h ⊢
  obtain ⟨before, cs', rfl, hbefore, -, hword⟩ := List.filter_eq_cons_iff.mp h
  obtain ⟨cs'', rfl, hrest⟩ := word_of_withoutBlanks (hblanks.of_append before) hname hword
  exact ⟨before, cs'', rfl, by simpa using hbefore, hrest⟩

/-- Braces with nothing but blanks before and between them. -/
theorem braces_of_withoutBlanks {rest : List Char}
    (h : withoutBlanks cs = '\x7b' :: '\x7d' :: rest) : ∃ before between cs',
      cs = before ++ '\x7b' :: (between ++ '\x7d' :: cs') ∧
        (∀ c ∈ before, Text.isBlank c = true) ∧ (∀ c ∈ between, Text.isBlank c = true) ∧
          withoutBlanks cs' = rest := by
  obtain ⟨before, cs₁, rfl, hbefore, -, h⟩ := List.filter_eq_cons_iff.mp h
  obtain ⟨between, cs₂, rfl, hbetween, -, h⟩ := List.filter_eq_cons_iff.mp h
  exact ⟨before, between, cs₂, rfl, by simpa using hbefore, by simpa using hbetween, h⟩

theorem reads_braces {ts : List Token} {last : Lexeme} {before between : List Char}
    (hblanks : BlanksSeparate (before ++ '\x7b' :: (between ++ '\x7d' :: cs)))
    (hbefore : ∀ c ∈ before, Text.isBlank c = true)
    (hbetween : ∀ c ∈ between, Text.isBlank c = true) (h : Reads cs ts last) :
    Reads (before ++ '\x7b' :: (between ++ '\x7d' :: cs))
      (.punctuator .braceOpen :: .punctuator .braceClose :: ts) last := by
  have hclose : Reads ('\x7d' :: cs) (.punctuator .braceClose :: ts) last :=
    reads_punctuator .braceClose h
  have hbetween : ∀ c ∈ between, isSeparator c = true := fun c hc =>
    hblanks.separators c (by simp [hc]) (hbetween c hc)
  refine reads_separators (fun c hc => hblanks.separators c (by simp [hc]) (hbefore c hc)) ?_
  exact reads_punctuator .braceOpen (reads_separators hbetween hclose)

/-- Skeletons are the tokens of empty operations if blanks only separate tokens. -/
theorem exists_reads_of_areSkeletons (h : areSkeletons (withoutBlanks cs) = true)
    (hblanks : BlanksSeparate cs) : ∃ ts, SelectNothing ts ∧ Reads cs ts .finish := by
  induction hlength : cs.length using Nat.strong_induction_on generalizing cs with
  | _ n ih =>
  subst hlength
  rcases areSkeletons_cases h with hnil | ⟨rest, hrest, hbare | ⟨op, hop⟩⟩
  · have hall : ∀ c ∈ cs, isSeparator c = true := by
      intro c hc
      have hblank : Text.isBlank c = true := by
        simpa using List.filter_eq_nil_iff.mp hnil c hc
      exact hblanks.separators c hc hblank
    have hreads := reads_separators hall .finish
    rw [List.append_nil] at hreads
    exact ⟨[], .nil, hreads⟩
  · obtain ⟨before, between, cs', rfl, hbefore, hbetween, rfl⟩ := braces_of_withoutBlanks hbare
    obtain ⟨ts, hts, hreads⟩ := ih cs'.length (by simp; omega) hrest
      (.of_append (before ++ '\x7b' :: (between ++ ['\x7d'])) (by simpa using hblanks)) rfl
    exact ⟨_, .bare hts, reads_braces hblanks hbefore hbetween hreads⟩
  · obtain ⟨outside, cs₁, rfl, houtside, hcs₁⟩ := keyword_of_withoutBlanks hblanks hop
    obtain ⟨before, between, cs', rfl, hbefore, hbetween, rfl⟩ := braces_of_withoutBlanks hcs₁
    have hinside : BlanksSeparate (before ++ '\x7b' :: (between ++ '\x7d' :: cs')) :=
      .of_append (outside ++ op.keyword.toList) (by simpa using hblanks)
    obtain ⟨ts, hts, hreads⟩ := ih cs'.length (by simp; omega) hrest
      (.of_append (before ++ '\x7b' :: (between ++ ['\x7d'])) (by simpa using hinside)) rfl
    have hends : Ends before := by
      intro c hc
      have hmem : c ∈ before := List.mem_of_mem_head? hc
      have hseparator := hinside.separators c (by simp [hmem]) (hbefore c hmem)
      exact endsNumber_of_isBlank (hbefore c hmem) hseparator
    refine ⟨_, .operation op hts, reads_separators (fun c hc => ?_) ?_⟩
    · exact hblanks.separators c (by simp [hc]) (houtside c hc)
    · exact reads_name (by cases op <;> decide) (ends_append hends (ends_cons (by decide)))
        (reads_braces hinside hbefore hbetween hreads)

/-- A text with the tokens of empty operations. -/
def IsSkeletonText (text : String) : Prop :=
  ∃ ts, SelectNothing ts ∧ (ofText text).map (·.lexeme) = ts.map .token ++ [.finish]

/-- A text that is nothing but skeletons without its blanks has the tokens of empty operations
exactly if its blanks only separate tokens. -/
theorem isSkeletonText_iff {text : String} (h : isEmptySkeleton text = true) :
    IsSkeletonText text ↔ BlanksSeparate text.toList := by
  constructor
  · rintro ⟨ts, hts, hlexemes⟩
    have hcomment : '#' ∉ text.toList := by
      intro hmem
      have hleft : '#' ∈ withoutBlanks text.toList :=
        List.mem_filter.mpr ⟨hmem, by decide⟩
      exact not_comment_of_areSkeletons h hleft
    exact (reads_of_scan hcomment hlexemes).blanksSeparate hts
  · intro hblanks
    obtain ⟨ts, hts, hreads⟩ := exists_reads_of_areSkeletons h hblanks
    have hlevels := hts.levelsAfterAll? (bracketBudget - 1)
    exact ⟨ts, hts, scan_of_reads hreads bracketBudget .start (Option.isSome_of_eq_some hlevels)⟩

theorem paths_of_isEmptySkeleton {text : String} (h : isEmptySkeleton text = true) (s : Schema) :
    paths s text = .ok [] := by
  rw [paths, if_pos h]

theorem paths_of_parse_error {text : String} {pos : Position} (h : isEmptySkeleton text = false)
    (herror : Document.parse text = .error pos) (s : Schema) : paths s text = .error ⟨pos⟩ := by
  rw [paths, h, herror]
  rfl

end QueryText

theorem SelectionTree.checkedNodes_resetSilently (t : SelectionTree) :
    t.resetSilently.checkedNodes = [] := by
  refine List.filter_eq_nil_iff.mpr fun x hx => ?_
  obtain ⟨r, hr, hx⟩ := mem_nodes.mp hx
  have hr : r ∈ TreeNode.setAlls .unchecked t.roots := hr
  rw [TreeNode.setAlls_eq] at hr
  obtain ⟨r, -, rfl⟩ := List.mem_map.mp hr
  rw [TreeNode.preorder_setAll] at hx
  obtain ⟨x, -, rfl⟩ := List.mem_map.mp hx
  simp

namespace Picker

open QueryText

variable {p : Picker}

/-- A text that cannot be read leaves the picker as it is. -/
theorem readText_of_error (h : p.IsReady) {e : SyntaxError}
    (herror : paths p.schema p.surface.text = .error e) : p.readText = (p, .error e) := by
  rw [readText, not_isHeld_of_free h.free.1, if_neg Bool.false_ne_true, herror]

/-- A text of skeletons is read, and nothing is selected afterwards. -/
theorem readText_of_isEmptySkeleton {ok : Schema → Prop} (h : Agrees ok p)
    (hskeleton : isEmptySkeleton p.surface.text = true) :
    p.readText.2 = .ok () ∧ p.readText.1.selections = .empty := by
  have hfree : p.display.fromClicks.isHeld = false := not_isHeld_of_free h.rest.fromClicks
  rw [readText, hfree, if_neg Bool.false_ne_true, paths_of_isEmptySkeleton hskeleton]
  have hcleared : (Batch.start p.selections).restate p.schema []
      p.tree.resetSilently.checkedNodes = (Batch.start p.selections).clear.1 := by
    rw [p.tree.checkedNodes_resetSilently, Batch.restate_eq]
    rfl
  have hkeeps : ((Batch.start p.selections).restate p.schema []
      p.tree.resetSilently.checkedNodes).Keeps p.selections fun _ => True :=
    Batch.keeps_restate (Batch.keeps_start fun _ _ => trivial) (fun _ _ _ _ => trivial)
      fun _ _ _ _ => trivial
  obtain ⟨hselections, -, -⟩ := outside_change
    (s := (p.withDisplay fun d => { d with fromText := d.fromText.acquire }).session)
    h.rest.listeners (Hold.isHeld_acquire _) hkeeps
  exact ⟨rfl, hselections.trans (congrArg Batch.selections hcleared)⟩

end Picker

/-- Exactly as long as its blanks only separate tokens, a text that is taken for an empty selection
has the tokens of empty operations; every other text that is no document is then reported, and
leaves the picker that shows it as it is. -/
theorem QueryText.isSkeletonText_and_reported_iff (text : String) :
    ((isEmptySkeleton text = true → IsSkeletonText text) ∧
      ∀ pos, Document.parse text = .error pos → ¬ IsSkeletonText text →
        (∀ s, paths s text = .error ⟨pos⟩) ∧
        ∀ (schema : Schema) (maxDepth : Nat) (surface : TextSurface) (steps : List Picker.Step),
          let p := (Picker.start schema maxDepth surface).run steps
          p.surface.text = text → p.readText = (p, .error ⟨pos⟩)) ↔
    (isEmptySkeleton text = true → Located.BlanksSeparate text.toList) := by
  constructor
  · intro h hskeleton
    exact (isSkeletonText_iff hskeleton).mp (h.1 hskeleton)
  · intro h
    have htokens : isEmptySkeleton text = true → IsSkeletonText text :=
      fun hskeleton => (isSkeletonText_iff hskeleton).mpr (h hskeleton)
    refine ⟨htokens, fun pos herror hnot => ?_⟩
    have hskeleton : isEmptySkeleton text = false :=
      Bool.eq_false_iff.mpr fun hskeleton => hnot (htokens hskeleton)
    refine ⟨paths_of_parse_error hskeleton herror, ?_⟩
    rintro schema maxDepth surface steps p rfl
    have hready : p.IsReady :=
      Picker.isReady_run (Picker.isReady_start schema maxDepth surface) steps
    exact Picker.readText_of_error hready (paths_of_parse_error hskeleton herror p.schema)

/-- A text that ends too early is reported, and the picker stays as it is. -/
theorem QueryText.reported_unfinished :
    let text := "query \x7b user"
    let p := Picker.start SelectionMap.friends 5 (.showing text)
    (isEmptySkeleton text = true → Located.BlanksSeparate text.toList) ∧
      Document.parse text = .error ⟨1, 13⟩ ∧ ¬ IsSkeletonText text ∧
        p.readText = (p, .error ⟨⟨1, 13⟩⟩) := by
  intro text p
  have hskeleton : isEmptySkeleton text = false := by decide +kernel
  have hblanks : isEmptySkeleton text = true → Located.BlanksSeparate text.toList := by
    simp [hskeleton]
  have herror : Document.parse text = .error ⟨1, 13⟩ := by cbv
  have hlexemes : (Located.ofText text).map (·.lexeme) = [.token (.name "query".toList),
      .token (.punctuator .braceOpen), .token (.name "user".toList), .finish] := by
    decide +kernel
  have hnot : ¬ IsSkeletonText text := by
    rintro ⟨ts, hts, h⟩
    rw [hlexemes] at h
    cases hts <;> simp at h
  obtain ⟨-, hreported⟩ := (isSkeletonText_and_reported_iff text).mpr hblanks
  exact ⟨hblanks, herror, hnot,
    (hreported _ herror hnot).2 SelectionMap.friends 5 (.showing text) [] rfl⟩

/-- A text with a blank inside a keyword is no document, but it clears the selection. -/
theorem Picker.selection_cleared_by_divided_keyword :
    let text := "qu ery \x7b \x7d"
    let p := (start SelectionMap.friends 5 (.showing "")).run [.edit friendNameText]
    QueryText.isEmptySkeleton text = true ∧ ¬ QueryText.IsSkeletonText text ∧
      (∃ pos, Document.parse text = .error pos) ∧ p.selections.paths ≠ [] ∧
        (p.perform (.edit text)).answer = .done ∧
          (p.perform (.edit text)).picker.selections = .empty := by
  intro text p
  have hskeleton : QueryText.isEmptySkeleton text = true := by decide +kernel
  have hdivided : ¬ QueryText.IsSkeletonText text := by
    rw [QueryText.isSkeletonText_iff hskeleton]
    intro hblanks
    have hnil : [' '] = [] := hblanks.undivided ['q'] 'u' [' '] 'e' "ry \x7b \x7d".toList
      (by decide) (by decide) (by decide) (List.forall_mem_singleton.mpr (by decide))
    cases hnil
  have hstart : Agrees Schema.WellNamed
      ((start SelectionMap.friends 5 (.showing "")).setText friendNameText).1 :=
    agrees_withSurface (agrees_start wellNamed_friends 5 _) _
  obtain ⟨hagrees, hsurface, -, hselected⟩ :=
    agrees_restate (fun _ hs => hs.distinct) hstart paths_friendNameText
  have hagrees : Agrees Schema.WellNamed (p.setText text).1 := agrees_withSurface hagrees _
  have hshown : (p.setText text).1.surface.text = text := by
    show (p.surface.setText text).1.text = text
    rw [show p.surface = _ from hsurface]
    rfl
  have hread : QueryText.isEmptySkeleton (p.setText text).1.surface.text = true := by
    rw [hshown, hskeleton]
  obtain ⟨hdone, hcleared⟩ := readText_of_isEmptySkeleton hagrees hread
  refine ⟨hskeleton, hdivided, ⟨⟨1, 1⟩, by cbv⟩, ?_, congrArg readAnswer hdone, hcleared⟩
  exact List.ne_nil_of_mem (hselected _ List.mem_cons_self)

end QueryPicker
