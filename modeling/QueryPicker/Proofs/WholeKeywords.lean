import Mathlib
import QueryPicker.Document.Completion

/-!
# Whole words

The words of a text are its runs of word characters with no word character on either side. The last
keyword among the words of a text is the one that ends last, and names the operation.
-/

namespace QueryPicker

namespace Text

/-- No word character stands at the end. -/
def EndsApart (before : List Char) : Prop := ∀ c ∈ before.getLast?, isWordChar c = false

/-- No word character stands at the start. -/
def StartsApart (after : List Char) : Prop := ∀ c ∈ after.head?, isWordChar c = false

theorem startsApart_nil : StartsApart [] := nofun

theorem EndsApart.cases {before : List Char} (h : EndsApart before) :
    before = [] ∨ ∃ front c, before = front ++ [c] ∧ isWordChar c = false := by
  rcases List.eq_nil_or_concat before with rfl | ⟨front, c, rfl⟩
  · exact .inl rfl
  · exact .inr ⟨front, c, by simp, h c (by simp)⟩

theorem StartsApart.cases {after : List Char} (h : StartsApart after) :
    after = [] ∨ ∃ c rest, after = c :: rest ∧ isWordChar c = false := by
  cases after with
  | nil => exact .inl rfl
  | cons c rest => exact .inr ⟨c, rest, rfl, h c rfl⟩

theorem EndsApart.append_of_ne_nil {before : List Char} (h : EndsApart before)
    (hne : before ≠ []) (front : List Char) : EndsApart (front ++ before) := by
  rwa [EndsApart, List.getLast?_append_of_ne_nil _ hne]

theorem startsApart_append_iff {after rest : List Char} (h : StartsApart rest) :
    StartsApart (after ++ rest) ↔ StartsApart after := by
  cases after with
  | nil => exact iff_of_true h startsApart_nil
  | cons c after => exact Iff.rfl

/-- What stands apart although a word would go on with the rest starts with its own character. -/
theorem StartsApart.of_append {after rest : List Char} (h : StartsApart (after ++ rest))
    (hrest : ¬ StartsApart rest) : ∃ c more, after = c :: more ∧ isWordChar c = false := by
  cases after with
  | nil => exact absurd h hrest
  | cons c more => exact ⟨c, more, rfl, h c rfl⟩

variable {before word after : List Char} {c : Char}

theorem words_go_cons (c : Char) (text word : List Char) : words.go (c :: text) word =
    if isWordChar c then words.go text (c :: word)
    else if word.isEmpty then words.go text [] else word.reverse :: words.go text [] := by
  rw [words.go]

theorem words_go_append (hc : isWordChar c = false) (word before after : List Char) :
    words.go (before ++ c :: after) word = words.go before word ++ words.go after [] := by
  induction before generalizing word with
  | nil =>
    rw [List.nil_append, words_go_cons, if_neg (ne_true_of_eq_false hc)]
    cases word <;> simp [words.go]
  | cons b before ih =>
    rw [List.cons_append, words_go_cons, words_go_cons, ih, ih]
    split_ifs <;> rfl

/-- A character that is in no word divides the words. -/
theorem words_append_cons (hc : isWordChar c = false) (before after : List Char) :
    words (before ++ c :: after) = words before ++ words after :=
  words_go_append hc [] before after

theorem words_append_of_endsApart (h : EndsApart before) (after : List Char) :
    words (before ++ after) = words before ++ words after := by
  rcases h.cases with rfl | ⟨front, c, rfl, hc⟩
  · rfl
  · rw [List.append_assoc, List.singleton_append, words_append_cons hc, words_append_cons hc]
    simp [words, words.go]

theorem words_append_of_startsApart (h : StartsApart after) (before : List Char) :
    words (before ++ after) = words before ++ words after := by
  rcases h.cases with rfl | ⟨c, rest, rfl, hc⟩
  · simp [words, words.go]
  · have hnone : words (c :: rest) = words rest := words_append_cons hc [] rest
    rw [words_append_cons hc, hnone]

theorem words_go_of_all (h : ∀ c ∈ word, isWordChar c = true) (start : List Char) :
    words.go word start = words.go [] (word.reverse ++ start) := by
  induction word generalizing start with
  | nil => rfl
  | cons c word ih =>
    rw [words_go_cons, if_pos (h c List.mem_cons_self),
      ih fun d hd => h d (List.mem_cons_of_mem c hd)]
    simp

/-- Word characters alone are one word. -/
theorem words_of_all (hne : word ≠ []) (h : ∀ c ∈ word, isWordChar c = true) :
    words word = [word] := by
  rw [words, words_go_of_all h]
  obtain ⟨c, rest, hreverse⟩ := List.exists_cons_of_ne_nil (List.reverse_ne_nil_iff.mpr hne)
  have hword : words.go [] (c :: rest) = [(c :: rest).reverse] := rfl
  rw [List.append_nil, hreverse, hword, ← hreverse, List.reverse_reverse]

/-- A run of word characters that nothing goes on with is one word among the others. -/
theorem words_around (hbefore : EndsApart before) (hne : word ≠ [])
    (hword : ∀ c ∈ word, isWordChar c = true) (hafter : StartsApart after) :
    words (before ++ word ++ after) = words before ++ word :: words after := by
  rw [words_append_of_startsApart hafter, words_append_of_endsApart hbefore,
    words_of_all hne hword, List.append_assoc, List.singleton_append]

/-- What stands behind the last character that is in no word. -/
theorem exists_last_run (text : List Char) : ∃ front run, text = front ++ run ∧
    EndsApart front ∧ ∀ c ∈ run, isWordChar c = true := by
  refine ⟨text.rdropWhile isWordChar, text.rtakeWhile isWordChar,
    List.rdropWhile_append_rtakeWhile.symm, fun c hc => ?_, fun c => List.mem_rtakeWhile_imp⟩
  obtain ⟨hne, rfl⟩ := List.mem_getLast?_eq_getLast hc
  exact Bool.eq_false_iff.mpr (List.rdropWhile_last_not isWordChar text hne)

/-- Every word is a run of word characters that nothing goes on with. -/
theorem exists_around_of_mem_words {text : List Char} (h : word ∈ words text) :
    ∃ before after, text = before ++ word ++ after ∧ EndsApart before ∧ StartsApart after := by
  induction hlength : text.length using Nat.strong_induction_on generalizing text with
  | _ n ih =>
  subst hlength
  obtain ⟨front, run, rfl, hfront, hrun⟩ := exists_last_run text
  rw [words_append_of_endsApart hfront, List.mem_append] at h
  rcases h with h | h
  · rcases hfront.cases with rfl | ⟨shorter, c, rfl, hc⟩
    · cases h
    · rw [words_append_cons hc shorter []] at h
      have h : word ∈ words shorter := by simpa [words, words.go] using h
      obtain ⟨before, after, rfl, hbefore, hafter⟩ := ih shorter.length (by simp) h rfl
      refine ⟨before, after ++ c :: run, by simp, hbefore, fun d hd => ?_⟩
      cases after with
      | nil =>
        obtain rfl : c = d := by simpa using hd
        exact hc
      | cons e after => exact hafter d (by simpa using hd)
  · rcases eq_or_ne run [] with rfl | hne
    · cases h
    · rw [words_of_all hne hrun] at h
      obtain rfl := List.mem_singleton.mp h
      exact ⟨front, [], by simp, hfront, startsApart_nil⟩

end Text

namespace Operation

theorem keyword_ne_nil (op : Operation) : op.keyword.toList ≠ [] := by
  cases op <;> decide

theorem isWordChar_of_mem_keyword (op : Operation) :
    ∀ c ∈ op.keyword.toList, Text.isWordChar c = true :=
  List.all_eq_true.mp (by cases op <;> decide)

end Operation

namespace Completion

open Text

/-- The keyword stands in the text as a whole word, which ends with that many bytes. -/
def KeywordEndsAt (text : List Char) (op : Operation) (stop : Nat) : Prop :=
  ∃ before after, text = before ++ op.keyword.toList ++ after ∧ EndsApart before ∧
    StartsApart after ∧ stop = String.utf8Len (before ++ op.keyword.toList)

/-- Of the operations whose keywords end somewhere, the one whose keyword ends last; a query if
there are none. -/
inductive IsLast (Ends : Operation → Nat → Prop) : Operation → Prop where
  | keyword {op stop} (h : Ends op stop) (hlast : ∀ other stop', Ends other stop' → stop' ≤ stop) :
    IsLast Ends op
  | none (h : ∀ op stop, ¬ Ends op stop) : IsLast Ends .query

/-- The operations of the keywords in a text, in order. -/
def keywords (text : List Char) : List Operation :=
  (words text).filterMap fun word => Operation.ofKeyword? (String.ofList word)

theorem lastOperation_eq (text : List Char) :
    lastOperation text = (keywords text).getLast?.getD .query := rfl

variable {text : List Char} {op : Operation} {stop : Nat}

theorem keywords_append_of_endsApart {front : List Char} (h : EndsApart front)
    (rest : List Char) : keywords (front ++ rest) = keywords front ++ keywords rest := by
  rw [keywords, words_append_of_endsApart h, List.filterMap_append]
  rfl

theorem keywords_around (op : Operation) {before after : List Char} (hbefore : EndsApart before)
    (hafter : StartsApart after) : keywords (before ++ op.keyword.toList ++ after) =
      keywords before ++ op :: keywords after := by
  have hkeyword : Operation.ofKeyword? (String.ofList op.keyword.toList) = some op :=
    Operation.ofKeyword?_eq_some.mpr String.ofList_toList
  rw [keywords, words_around hbefore op.keyword_ne_nil op.isWordChar_of_mem_keyword hafter,
    List.filterMap_append, List.filterMap_cons, hkeyword]
  rfl

/-- Every keyword among the words ends somewhere. -/
theorem exists_endsAt_of_mem_keywords (h : op ∈ keywords text) :
    ∃ before after, text = before ++ op.keyword.toList ++ after ∧ EndsApart before ∧
      StartsApart after := by
  obtain ⟨word, hword, hop⟩ := List.mem_filterMap.mp h
  obtain rfl : word = op.keyword.toList := by
    rw [← Operation.ofKeyword?_eq_some.mp hop, String.toList_ofList]
  exact exists_around_of_mem_words hword

theorem utf8Len_keyword_pos (op : Operation) : 0 < String.utf8Len op.keyword.toList :=
  Nat.pos_of_ne_zero fun h => op.keyword_ne_nil (String.utf8Len_eq_zero.mp h)

theorem not_startsApart_keyword (op : Operation) (rest : List Char) :
    ¬ StartsApart (op.keyword.toList ++ rest) := by
  intro h
  obtain ⟨c, more, hkeyword⟩ := List.exists_cons_of_ne_nil op.keyword_ne_nil
  have hword := op.isWordChar_of_mem_keyword c (hkeyword ▸ List.mem_cons_self)
  rw [h c (by rw [hkeyword]; rfl)] at hword
  cases hword

theorem not_endsApart_keyword (op : Operation) (before : List Char) :
    ¬ EndsApart (before ++ op.keyword.toList) := by
  intro h
  have hne := op.keyword_ne_nil
  have hlast : (op.keyword.toList.getLast hne) ∈ (before ++ op.keyword.toList).getLast? := by
    rw [List.getLast?_append_of_ne_nil _ hne, List.getLast?_eq_getLast_of_ne_nil hne]
    rfl
  have hword := op.isWordChar_of_mem_keyword _ (List.getLast_mem hne)
  rw [h _ hlast] at hword
  cases hword

theorem KeywordEndsAt.le (h : KeywordEndsAt text op stop) : stop ≤ String.utf8Len text := by
  obtain ⟨before, after, rfl, -, -, rfl⟩ := h
  rw [String.utf8Len_append (before ++ _)]
  exact Nat.le_add_right _ _

theorem IsLast.eq_lastOperation (h : IsLast (KeywordEndsAt text) op) :
    op = lastOperation text := by
  rw [lastOperation_eq]
  cases h with
  | @keyword op stop h hlast =>
    obtain ⟨before, after, rfl, hbefore, hafter, rfl⟩ := h
    have hnone : keywords after = [] := by
      by_contra hne
      obtain ⟨other, hother⟩ := List.exists_mem_of_ne_nil _ hne
      obtain ⟨between, rest, rfl, hbetween, hrest⟩ := exists_endsAt_of_mem_keywords hother
      have hends : KeywordEndsAt (before ++ op.keyword.toList ++
          (between ++ other.keyword.toList ++ rest)) other
          (String.utf8Len (before ++ op.keyword.toList ++ between ++ other.keyword.toList)) := by
        refine ⟨before ++ op.keyword.toList ++ between, rest, by simp, ?_, hrest, rfl⟩
        rcases eq_or_ne between [] with rfl | hne
        · exact absurd hafter (not_startsApart_keyword other rest)
        · exact hbetween.append_of_ne_nil hne _
      have hle := hlast _ _ hends
      have hpos := utf8Len_keyword_pos other
      simp only [String.utf8Len_append] at hle
      omega
    rw [keywords_around op hbefore hafter, hnone, List.getLast?_concat]
    rfl
  | none h =>
    have hnone : keywords text = [] := by
      by_contra hne
      obtain ⟨other, hother⟩ := List.exists_mem_of_ne_nil _ hne
      obtain ⟨before, after, heq, hbefore, hafter⟩ := exists_endsAt_of_mem_keywords hother
      exact h other _ ⟨before, after, heq, hbefore, hafter, rfl⟩
    rw [hnone]
    rfl

/-- The keywords of a text name exactly one operation. -/
theorem isLast_iff : IsLast (KeywordEndsAt text) op ↔ op = lastOperation text := by
  refine ⟨IsLast.eq_lastOperation, ?_⟩
  rintro rfl
  have hexists : ∃ op, IsLast (KeywordEndsAt text) op := by
    by_cases hnone : ∃ stop, ∃ op, KeywordEndsAt text op stop
    · obtain ⟨stop, hstop⟩ := hnone
      have hbounded : BddAbove {stop | ∃ op, KeywordEndsAt text op stop} :=
        ⟨String.utf8Len text, fun stop ⟨op, h⟩ => h.le⟩
      obtain ⟨op, h⟩ := Nat.sSup_mem ⟨stop, hstop⟩ hbounded
      exact ⟨op, .keyword h fun other stop' hother => le_csSup hbounded ⟨other, hother⟩⟩
    · exact ⟨.query, .none fun op stop h => hnone ⟨stop, op, h⟩⟩
  obtain ⟨op, h⟩ := hexists
  exact h.eq_lastOperation ▸ h

end Completion

end QueryPicker
