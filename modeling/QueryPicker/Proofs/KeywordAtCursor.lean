import Mathlib
import QueryPicker.Proofs.RoundTrip
import QueryPicker.Proofs.WholeKeywords

/-!
# The keyword at a cursor

A cursor is a number of bytes and stands at the last boundary between characters that it reaches.
Completion offers the fields of the operation whose keyword is the last whole word up to there, with
one exception: behind a keyword with which a longer name begins it follows that keyword.
-/

namespace QueryPicker.Completion

open Text

/-- That many bytes are whole characters at the start of the text. -/
def IsBoundary (text : List Char) (stop : Nat) : Prop :=
  ∃ shown, shown <+: text ∧ stop = String.utf8Len shown

/-- The keyword ends at that boundary, and the next character goes on with it to a longer name. -/
def BeginsNameAt (text : List Char) (stop : Nat) (op : Operation) : Prop :=
  ∃ before c after, text = before ++ op.keyword.toList ++ c :: after ∧ EndsApart before ∧
    isWordChar c = true ∧ stop = String.utf8Len (before ++ op.keyword.toList)

/-- The cursor stands between the two parts of a text, or in the first character of the second. -/
structure Cuts (cursor : Nat) (shown hidden : List Char) : Prop where
  within : String.utf8Len shown ≤ cursor
  beyond : ∀ c ∈ hidden.head?, cursor < String.utf8Len shown + c.utf8Size

variable {text shown hidden : List Char} {cursor stop : Nat} {op : Operation}

theorem exists_cut (cursor : Nat) (text : List Char) :
    ∃ hidden, text = takeBytes cursor text ++ hidden ∧
      Cuts cursor (takeBytes cursor text) hidden := by
  induction text generalizing cursor with
  | nil => exact ⟨[], rfl, Nat.zero_le _, nofun⟩
  | cons c text ih =>
    rw [takeBytes]
    split_ifs with hfits
    · obtain ⟨hidden, htext, hwithin, hbeyond⟩ := ih (cursor - c.utf8Size)
      refine ⟨hidden, congrArg (c :: ·) htext, ?_, fun d hd => ?_⟩
      · rw [String.utf8Len_cons]
        omega
      · have := hbeyond d hd
        rw [String.utf8Len_cons]
        omega
    · refine ⟨c :: text, rfl, Nat.zero_le _, ?_⟩
      rintro d ⟨⟩
      rw [String.utf8Len_nil]
      omega

/-- Of two starts of a text the one with no more bytes starts the other. -/
theorem prefix_iff_utf8Len_le {a b : List Char} (ha : a <+: text) (hb : b <+: text) :
    a <+: b ↔ String.utf8Len a ≤ String.utf8Len b := by
  refine ⟨fun h => String.utf8Len_le_of_prefix h, fun hle => ?_⟩
  rcases List.prefix_or_prefix_of_prefix ha hb with h | ⟨rest, rfl⟩
  · exact h
  · rw [String.utf8Len_append] at hle
    obtain rfl : rest = [] := String.utf8Len_eq_zero.mp (by omega)
    rw [List.append_nil]

theorem Cuts.isGreatest (h : Cuts cursor shown hidden) :
    IsGreatest {stop | IsBoundary (shown ++ hidden) stop ∧ stop ≤ cursor}
      (String.utf8Len shown) := by
  refine ⟨⟨⟨shown, List.prefix_append _ _, rfl⟩, h.within⟩, ?_⟩
  rintro _ ⟨⟨start, hstart, rfl⟩, hcursor⟩
  by_contra hlt
  have hshown : shown <+: start :=
    (prefix_iff_utf8Len_le (List.prefix_append _ _) hstart).mpr (by omega)
  obtain ⟨rest, rfl⟩ := hshown
  rw [List.prefix_append_right_inj] at hstart
  cases rest with
  | nil => simp at hlt
  | cons c rest =>
    have hhead : c ∈ hidden.head? := by
      obtain ⟨more, rfl⟩ := hstart
      rfl
    have := h.beyond c hhead
    rw [String.utf8Len_append, String.utf8Len_cons] at hcursor
    omega

/-- The operation of the last keyword that stands in the text as a whole word and ends at the
boundary or before; a query if there is none. -/
def IsLastKeyword (text : List Char) (limit : Nat) (op : Operation) : Prop :=
  IsLast (fun op stop => KeywordEndsAt text op stop ∧ stop ≤ limit) op

theorem endsAt_append_iff :
    (KeywordEndsAt (shown ++ hidden) op stop ∧ stop ≤ String.utf8Len shown) ↔
    ∃ before after, shown = before ++ op.keyword.toList ++ after ∧ EndsApart before ∧
      StartsApart (after ++ hidden) ∧ stop = String.utf8Len (before ++ op.keyword.toList) := by
  constructor
  · rintro ⟨⟨before, after, htext, hbefore, hafter, rfl⟩, hle⟩
    have hstart : before ++ op.keyword.toList <+: shown ++ hidden := htext ▸ List.prefix_append _ _
    obtain ⟨rest, rfl⟩ := (prefix_iff_utf8Len_le hstart (List.prefix_append _ _)).mpr hle
    rw [List.append_assoc, List.append_cancel_left_eq] at htext
    exact ⟨before, rest, rfl, hbefore, htext ▸ hafter, rfl⟩
  · rintro ⟨before, after, rfl, hbefore, hafter, rfl⟩
    refine ⟨⟨before, after ++ hidden, by simp, hbefore, hafter, rfl⟩, ?_⟩
    rw [String.utf8Len_append _ after]
    exact Nat.le_add_right _ _

/-- If no word goes on behind the cursor, the whole keywords up to there are those of the first part
of the text. -/
theorem isLastKeyword_iff (h : StartsApart hidden) :
    IsLastKeyword (shown ++ hidden) (String.utf8Len shown) op ↔ op = lastOperation shown := by
  have hends : ∀ op stop, (KeywordEndsAt (shown ++ hidden) op stop ∧
      stop ≤ String.utf8Len shown) ↔ KeywordEndsAt shown op stop := by
    intro op stop
    rw [endsAt_append_iff]
    refine exists_congr fun before => exists_congr fun after => ?_
    rw [startsApart_append_iff h]
  simp only [IsLastKeyword, hends, isLast_iff]

/-- If a word goes on behind the cursor, the run before the cursor is no whole word. -/
theorem isLastKeyword_append_iff {front run : List Char} (hfront : EndsApart front)
    (hrun : ∀ c ∈ run, isWordChar c = true) (h : ¬ StartsApart hidden) :
    IsLastKeyword (front ++ run ++ hidden) (String.utf8Len (front ++ run)) op ↔
      op = lastOperation front := by
  have hends : ∀ op stop, (KeywordEndsAt (front ++ run ++ hidden) op stop ∧
      stop ≤ String.utf8Len (front ++ run)) ↔ KeywordEndsAt front op stop := by
    intro op stop
    rw [endsAt_append_iff]
    constructor
    · rintro ⟨before, after, heq, hbefore, hafter, rfl⟩
      obtain ⟨c, rest, rfl, hc⟩ := hafter.of_append h
      have hnotMem : c ∉ run := fun hmem => by
        rw [hrun c hmem] at hc
        cases hc
      rcases List.append_eq_append_iff.mp heq with ⟨between, -, rfl⟩ | ⟨between, rfl, hrest⟩
      · exact absurd (List.mem_append_right _ List.mem_cons_self) hnotMem
      · cases between with
        | nil =>
          have hrest : c :: rest = run := hrest
          exact absurd (hrest ▸ List.mem_cons_self) hnotMem
        | cons d between =>
          obtain ⟨rfl, -⟩ := List.cons.inj hrest
          exact ⟨before, c :: between, rfl, hbefore, fun e he => Option.some.inj he ▸ hc, rfl⟩
    · rintro ⟨before, after, rfl, hbefore, hafter, rfl⟩
      cases after with
      | nil =>
        rw [List.append_nil] at hfront
        exact absurd hfront (not_endsApart_keyword op before)
      | cons c after =>
        exact ⟨before, c :: after ++ run, by simp, hbefore, fun d hd => hafter d hd, rfl⟩
  simp only [IsLastKeyword, hends, isLast_iff]

theorem beginsNameAt_append_iff : BeginsNameAt (shown ++ hidden) (String.utf8Len shown) op ↔
    ∃ before, shown = before ++ op.keyword.toList ∧ EndsApart before ∧ ¬ StartsApart hidden := by
  constructor
  · rintro ⟨before, c, after, htext, hbefore, hc, hstop⟩
    have hstart : before ++ op.keyword.toList <+: shown ++ hidden := htext ▸ List.prefix_append _ _
    obtain ⟨rest, rfl⟩ := (prefix_iff_utf8Len_le hstart (List.prefix_append _ _)).mpr hstop.ge
    obtain rfl : rest = [] := by
      rw [String.utf8Len_append _ rest] at hstop
      exact String.utf8Len_eq_zero.mp (by omega)
    rw [List.append_nil, List.append_cancel_left_eq] at htext
    subst htext
    refine ⟨before, List.append_nil _, hbefore, fun hstarts => ?_⟩
    rw [hstarts c rfl] at hc
    cases hc
  · rintro ⟨before, rfl, hbefore, hhidden⟩
    cases hidden with
    | nil => exact absurd startsApart_nil hhidden
    | cons c after =>
      refine ⟨before, c, after, rfl, hbefore, ?_, rfl⟩
      by_contra hc
      exact hhidden fun d hd => Option.some.inj hd ▸ Bool.eq_false_iff.mpr hc

theorem lastOperation_keyword {before : List Char} (h : EndsApart before) (op : Operation) :
    lastOperation (before ++ op.keyword.toList) = op := by
  have hkeywords : keywords (before ++ op.keyword.toList) = keywords before ++ [op] := by
    have haround := keywords_around op h startsApart_nil
    rwa [List.append_nil] at haround
  rw [lastOperation_eq, hkeywords]
  exact congrArg (·.getD Operation.query) List.getLast?_concat

/-- A run that is no keyword does not matter. -/
theorem lastOperation_append_of_run {front run : List Char} (hfront : EndsApart front)
    (hrun : ∀ c ∈ run, isWordChar c = true) (hnot : ∀ op : Operation, run ≠ op.keyword.toList) :
    lastOperation (front ++ run) = lastOperation front := by
  have hnone : keywords run = [] := by
    rcases eq_or_ne run [] with rfl | hne
    · rfl
    · rw [keywords, words_of_all hne hrun]
      refine List.filterMap_eq_nil_iff.mpr fun word hword => ?_
      obtain rfl := List.mem_singleton.mp hword
      refine Option.eq_none_iff_forall_ne_some.mpr fun op hop => hnot op ?_
      rw [← Operation.ofKeyword?_eq_some.mp hop, String.toList_ofList]
  rw [lastOperation_eq, lastOperation_eq, keywords_append_of_endsApart hfront, hnone,
    List.append_nil]

/-- Exactly one operation is that of the last whole keyword up to the cursor. -/
theorem exists_isLastKeyword (shown hidden : List Char) : ∃ op,
    (∀ other, IsLastKeyword (shown ++ hidden) (String.utf8Len shown) other ↔ other = op) ∧
      ((∀ cut, ¬ BeginsNameAt (shown ++ hidden) (String.utf8Len shown) cut) →
        lastOperation shown = op) := by
  by_cases h : StartsApart hidden
  · exact ⟨lastOperation shown, fun _ => isLastKeyword_iff h, fun _ => rfl⟩
  · obtain ⟨front, run, rfl, hfront, hrun⟩ := exists_last_run shown
    refine ⟨lastOperation front, fun _ => isLastKeyword_append_iff hfront hrun h, fun hnot => ?_⟩
    refine lastOperation_append_of_run hfront hrun ?_
    rintro op rfl
    exact hnot op (beginsNameAt_append_iff.mpr ⟨front, rfl, hfront, h⟩)

/-- What is offered for an operation: its fields in the order of the schema, and nothing if its root
type is not defined. -/
def offered (s : Schema) (op : Operation) : List Completion :=
  ((s.rootType? op).map fun root => root.fields.map ofField).getD []

theorem atCursor_eq (s : Schema) (text : String) (cursor : Nat) :
    atCursor s text cursor = offered s (lastOperation (takeBytes cursor text.toList)) := by
  rw [atCursor, offered]
  cases s.rootType? (lastOperation (takeBytes cursor text.toList)) <;> rfl

/-- With the cursor moved back to a boundary, completion offers the fields of the operation whose
keyword is the last whole word up to there, exactly as long as a longer name that begins with a
keyword right before the cursor makes no difference: it follows the keyword in that name. -/
theorem atCursor_eq_offered_iff (s : Schema) (text : String) (cursor : Nat) : ∃ stop op,
    IsGreatest {stop | IsBoundary text.toList stop ∧ stop ≤ cursor} stop ∧
      (∀ other, IsLastKeyword text.toList stop other ↔ other = op) ∧
      (∀ cut, BeginsNameAt text.toList stop cut → atCursor s text cursor = offered s cut) ∧
      (atCursor s text cursor = offered s op ↔
        ∀ cut, BeginsNameAt text.toList stop cut → offered s cut = offered s op) := by
  obtain ⟨hidden, htext, hcuts⟩ := exists_cut cursor text.toList
  rw [atCursor_eq]
  generalize takeBytes cursor text.toList = shown at htext hcuts
  rw [htext]
  obtain ⟨op, hlast, hfollowed⟩ := exists_isLastKeyword shown hidden
  have hcut : ∀ cut, BeginsNameAt (shown ++ hidden) (String.utf8Len shown) cut →
      lastOperation shown = cut := by
    intro cut hbegins
    obtain ⟨before, rfl, hbefore, -⟩ := beginsNameAt_append_iff.mp hbegins
    exact lastOperation_keyword hbefore cut
  refine ⟨String.utf8Len shown, op, hcuts.isGreatest, hlast,
    fun cut hbegins => congrArg (offered s) (hcut cut hbegins), ?_⟩
  constructor
  · intro h cut hbegins
    rw [← hcut cut hbegins, h]
  · intro h
    by_cases hbegins : ∃ cut, BeginsNameAt (shown ++ hidden) (String.utf8Len shown) cut
    · obtain ⟨cut, hbegins⟩ := hbegins
      rw [hcut cut hbegins, h cut hbegins]
    · rw [hfollowed (not_exists.mp hbegins)]

/-- The whole name at the cursor is no keyword, but its beginning is followed, and nothing is
offered. -/
theorem nothing_offered_in_mutationLog :
    let text := "query \x7b mutationLog"
    IsGreatest {stop | IsBoundary text.toList stop ∧ stop ≤ 16} 16 ∧
      IsLastKeyword text.toList 16 .query ∧ BeginsNameAt text.toList 16 .mutation ∧
      (offered SelectionMap.friends .query).map (·.name) = ["user"] ∧
      atCursor SelectionMap.friends text 16 = [] := by
  intro text
  have hfront : EndsApart "query \x7b ".toList := by
    rintro c ⟨⟩
    decide
  have hhidden : ¬ StartsApart "Log".toList := fun h => absurd (h 'L' rfl) (by decide)
  have hrun : ∀ c ∈ "mutation".toList, isWordChar c = true :=
    Operation.isWordChar_of_mem_keyword .mutation
  have hcuts : Cuts 16 ("query \x7b ".toList ++ "mutation".toList) "Log".toList := by
    refine ⟨by decide, ?_⟩
    rintro c ⟨⟩
    decide
  have htext : text.toList = "query \x7b ".toList ++ "mutation".toList ++ "Log".toList := by decide
  have hstop : String.utf8Len ("query \x7b ".toList ++ "mutation".toList) = 16 := by decide
  have hlast : IsLastKeyword text.toList 16 .query := by
    rw [htext, ← hstop, isLastKeyword_append_iff hfront hrun hhidden]
    decide
  have hbegins : BeginsNameAt text.toList 16 .mutation := by
    rw [htext, ← hstop, beginsNameAt_append_iff]
    exact ⟨_, rfl, hfront, hhidden⟩
  refine ⟨?_, hlast, hbegins, by decide, by decide⟩
  rw [htext]
  exact hstop ▸ hcuts.isGreatest

end QueryPicker.Completion
