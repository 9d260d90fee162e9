import Mathlib
import QueryPicker.Proofs.BracketDepth
import QueryPicker.Proofs.GrammarReading
import QueryPicker.Proofs.GrammarRefusal
import QueryPicker.Proofs.WrittenLines

/-!
# Literals through their text

The text of a literal is one value of the grammar, and the value is the literal, however strings and
lists nest in it. It is read whole exactly if as many brackets may be open as nest in it. The quotes
around a string are the only ones in its text that no backslash escapes.
-/

namespace QueryPicker

namespace Document

/-- The value that a text is, if it is one value and nothing else. A number of brackets may be open
at once. -/
def readValue? (isConst : Bool) (levels : Nat) (text : String) : Option Value :=
  let ts := Located.scan levels .start text.toList
  match value isConst (steps ts) ts with
  | .ok (v, [⟨_, .finish⟩]) => some v
  | _ => none

theorem readValue?_eq_none {isConst : Bool} {levels : Nat} {text : String} {found : Tokens}
    {pos : Position}
    (h : Located.scan levels .start text.toList = found ++ [⟨pos, .junk⟩]) :
    readValue? isConst levels text = none := by
  unfold readValue?
  rw [h]
  dsimp only
  split
  · rename_i v place hvalue
    have hsuffix := leaves_value _ _ hvalue
    have hlast := hsuffix.getLast (List.cons_ne_nil _ _)
    simp at hlast
  · rfl

mutual

/-- The literal with that value. Variables, blocks, objects and numbers with a fraction are left
out. -/
def Value.literal? : Value → Option Literal
  | .int n => some (.int n)
  | .string s => some (.string s)
  | .bool b => some (.bool b)
  | .null => some .null
  | .enumValue name => some (.enumValue name)
  | .list items => (literals? items).map .list
  | _ => none

def literals? : List Value → Option (List Literal)
  | [] => some []
  | item :: items => do return (← item.literal?) :: (← literals? items)

end

end Document

namespace Located

open Token

/-- Text whose brackets need more levels than there are ends in something that is no token. -/
theorem scan_of_spent {cs : List Char} {ts : List Token} {last : Lexeme} (h : Reads cs ts last)
    (levels : Nat) (pos : Position) (hlevels : levelsAfterAll? levels ts = none) :
    ∃ found place, scan levels pos cs = found ++ [⟨place, .junk⟩] := by
  induction h generalizing levels pos with
  | finish => cases hlevels
  | junk => cases hlevels
  | skip hc _ ih =>
    obtain ⟨pos', hscan⟩ := scan_skip hc levels pos _
    rw [hscan]
    exact ih levels pos' hlevels
  | @token c cs t rest ts last hc htake _ ih =>
    rw [scan_token hc htake]
    rw [levelsAfterAll?] at hlevels
    cases hafter : t.levelsAfter? levels with
    | none => exact ⟨[], pos, rfl⟩
    | some after =>
      rw [hafter, Option.bind_some] at hlevels
      obtain ⟨found, place, hscan⟩ := ih after (pos.advance t.text) hlevels
      exact ⟨⟨pos, .token t⟩ :: found, place, by simp [hscan]⟩

end Located

namespace Literal

open Document
open Token (levelsAfterAll? levelsAfterAll?_append ends_nil)

mutual

/-- A literal needs as many levels as brackets nest in it, and gives all of them back. -/
theorem levelsAfterAll?_tokens : ∀ (l : Literal) (levels : Nat),
    levelsAfterAll? levels l.tokens = if l.bracketDepth ≤ levels then some levels else none
  | null, _ => rfl
  | bool _, _ => rfl
  | int _, _ => rfl
  | float _, _ => rfl
  | string _, _ => rfl
  | enumValue _, _ => rfl
  | list items, 0 => rfl
  | list items, levels + 1 => by
    rw [tokens, List.cons_append, levelsAfterAll?]
    show ((some levels).bind fun levels => levelsAfterAll? levels _) = _
    rw [Option.bind_some, levelsAfterAll?_append, levelsAfterAll?_tokensOfAll items levels,
      bracketDepth]
    by_cases hle : depthOfAll items ≤ levels
    · rw [if_pos hle, if_pos (by omega)]
      rfl
    · rw [if_neg hle, if_neg (by omega)]
      rfl

theorem levelsAfterAll?_tokensOfAll : ∀ (items : List Literal) (levels : Nat),
    levelsAfterAll? levels (tokensOfAll items) =
      if depthOfAll items ≤ levels then some levels else none
  | [], _ => rfl
  | item :: items, levels => by
    rw [tokensOfAll, levelsAfterAll?_append, levelsAfterAll?_tokens item levels, depthOfAll]
    by_cases hitem : item.bracketDepth ≤ levels
    · rw [if_pos hitem, Option.bind_some, levelsAfterAll?_tokensOfAll items levels]
      simp [hitem]
    · rw [if_neg hitem, if_neg (by omega)]
      rfl

end

variable {isConst : Bool}

/-- The text of a literal is read as the value of the literal if its brackets stay within the
levels, and otherwise it is not read whole. -/
theorem readValue?_text {l : Literal} (h : l.isWellFormed = true) (hreadable : l.isReadable = true)
    (levels : Nat) : readValue? isConst levels l.text =
      if l.bracketDepth ≤ levels then some l.toValue else none := by
  have hreads := (l.scans_text h).spells hreadable ends_nil .finish
  rw [List.append_nil, List.append_nil] at hreads
  have hlevels := l.levelsAfterAll?_tokens levels
  by_cases hdepth : l.bracketDepth ≤ levels
  · rw [if_pos hdepth] at hlevels ⊢
    have hscan := Located.scan_of_reads hreads levels .start (by rw [hlevels]; rfl)
    obtain ⟨pos, hspans⟩ := Spans.of_map_lexeme hscan
    have hlength := hspans.length_eq
    have hfuel : l.tokens.length ≤ steps (Located.scan levels .start l.text.toList) := by
      unfold steps
      omega
    rw [readValue?, value_of_spans l _ h hspans hfuel]
  · rw [if_neg hdepth] at hlevels ⊢
    obtain ⟨found, pos, hscan⟩ := Located.scan_of_spent hreads levels .start hlevels
    exact readValue?_eq_none hscan

mutual

/-- A literal that no other literal is written as: there is no number with a fraction in it, and no
enum value has the name of another value. -/
def isPlain : Literal → Bool
  | int n => decide (-(Nat.pow 2 63 : Int) ≤ n ∧ n < Nat.pow 2 63)
  | float _ => false
  | enumValue name => isName name && decide (name ∉ ["true", "false", "null"])
  | list items => arePlain items
  | _ => true

def arePlain : List Literal → Bool
  | [] => true
  | item :: items => isPlain item && arePlain items

end

theorem ofName_of_isPlain {name : String} (h : (enumValue name).isPlain = true) :
    Value.ofName name = .enumValue name := by
  have hname : name ≠ "true" ∧ name ≠ "false" ∧ name ≠ "null" := by
    simpa [isPlain] using (Bool.and_eq_true_iff.mp h).2
  rw [Value.ofName, if_neg hname.1, if_neg hname.2.1, if_neg hname.2.2]

mutual

theorem spec_of_isPlain : ∀ l : Literal, l.isPlain = true →
    l.isWellFormed = true ∧ l.isReadable = true ∧ l.toValue.literal? = some l
  | null, _ => ⟨rfl, rfl, rfl⟩
  | bool _, _ => ⟨rfl, rfl, rfl⟩
  | int _, h => ⟨h, rfl, rfl⟩
  | float _, h => by cases h
  | string _, _ => ⟨rfl, rfl, rfl⟩
  | enumValue name, h => by
    refine ⟨(Bool.and_eq_true_iff.mp h).1, rfl, ?_⟩
    rw [toValue, ofName_of_isPlain h, Value.literal?]
  | list items, h => by
    obtain ⟨hwf, hreadable, hvalues⟩ := spec_of_arePlain items h
    refine ⟨hwf, hreadable, ?_⟩
    rw [toValue, Value.literal?, hvalues, Option.map_some]

theorem spec_of_arePlain : ∀ items : List Literal, arePlain items = true →
    areWellFormed items = true ∧ areReadable items = true ∧
      literals? (toValues items) = some items
  | [], _ => ⟨rfl, rfl, rfl⟩
  | item :: items, h => by
    obtain ⟨hitem, hitems⟩ := Bool.and_eq_true_iff.mp h
    obtain ⟨hwf, hreadable, hvalue⟩ := spec_of_isPlain item hitem
    obtain ⟨hwfs, hreadables, hvalues⟩ := spec_of_arePlain items hitems
    refine ⟨Bool.and_eq_true_iff.mpr ⟨hwf, hwfs⟩,
      Bool.and_eq_true_iff.mpr ⟨hreadable, hreadables⟩, ?_⟩
    simp [toValues, literals?, hvalue, hvalues]

end

/-- A plain literal is got back from its text if its brackets stay within the levels. -/
theorem readBack_of_isPlain {l : Literal} (h : l.isPlain = true) (levels : Nat) :
    (readValue? isConst levels l.text).bind Value.literal? =
      if l.bracketDepth ≤ levels then some l else none := by
  obtain ⟨hwf, hreadable, hvalue⟩ := l.spec_of_isPlain h
  rw [readValue?_text hwf hreadable]
  split_ifs
  · rw [Option.bind_some, hvalue]
  · rfl

/-- How many backslashes stand at the end of the text. -/
def slashesAtEnd (cs : List Char) : Nat := (cs.reverse.takeWhile (· == '\\')).length

/-- Whether an odd number of backslashes stands directly before a place in the text. -/
def isEscapedAt (cs : List Char) (i : Nat) : Bool := decide (slashesAtEnd (cs.take i) % 2 = 1)

/-- The text is the string in quotes: these are the only quotes in it that are not escaped, it stays
on its line, and between the quotes it stands for the characters of the string. -/
structure Encloses (text : List Char) (s : String) : Prop where
  quotes : ∀ i, text[i]? = some '"' ∧ isEscapedAt text i = false ↔ i = 0 ∨ i + 1 = text.length
  oneLine : '\n' ∉ text ∧ '\r' ∉ text
  unescapes : ∃ raw, text = '"' :: raw ++ ['"'] ∧ unescape? raw = some s.toList

theorem slashesAtEnd_concat (cs : List Char) (c : Char) :
    slashesAtEnd (cs ++ [c]) = if c = '\\' then slashesAtEnd cs + 1 else 0 := by
  by_cases hc : c = '\\' <;> simp [slashesAtEnd, hc]

theorem isEscapedAt_append {cs more : List Char} {i : Nat} (h : i ≤ cs.length) :
    isEscapedAt (cs ++ more) i = isEscapedAt cs i := by
  rw [isEscapedAt, List.take_append_of_le_length h]
  rfl

/-- A character is written as it is or after a backslash. -/
theorem escapeChar_cases (c : Char) :
    (∃ d, escapeChar c = ['\\', d]) ∨ escapeChar c = [c] ∧ c ≠ '"' ∧ c ≠ '\\' := by
  unfold escapeChar
  split_ifs with hquote hslash
  · exact .inl ⟨_, rfl⟩
  · exact .inl ⟨_, rfl⟩
  · exact .inl ⟨_, rfl⟩
  · exact .inl ⟨_, rfl⟩
  · exact .inl ⟨_, rfl⟩
  · exact .inr ⟨rfl, hquote, hslash⟩

theorem isEscapedAt_length (cs : List Char) (more : List Char) :
    isEscapedAt (cs ++ more) cs.length = decide (slashesAtEnd cs % 2 = 1) := by
  rw [isEscapedAt, List.take_left]

/-- No quotes but the first are outside of escapes, and what follows is not escaped. -/
structure OpensOnce (cs : List Char) : Prop where
  even : slashesAtEnd cs % 2 = 0
  quotes : ∀ i, cs[i]? = some '"' → isEscapedAt cs i = false → i = 0

namespace OpensOnce

variable {cs more : List Char}

/-- A quote that is not escaped stands first or in what follows. -/
theorem first_or_later (h : OpensOnce cs) {i : Nat} (hi : (cs ++ more)[i]? = some '"')
    (hescaped : isEscapedAt (cs ++ more) i = false) :
    i = 0 ∨ ∃ j, i = cs.length + j ∧ more[j]? = some '"' := by
  by_cases hlt : i < cs.length
  · rw [List.getElem?_append_left hlt] at hi
    rw [isEscapedAt_append hlt.le] at hescaped
    exact .inl (h.quotes i hi hescaped)
  · rw [List.getElem?_append_right (by omega)] at hi
    exact .inr ⟨i - cs.length, by omega, hi⟩

theorem plain (h : OpensOnce cs) {c : Char} (hquote : c ≠ '"') (hslash : c ≠ '\\') :
    OpensOnce (cs ++ [c]) := by
  refine ⟨by rw [slashesAtEnd_concat, if_neg hslash], fun i hi hescaped => ?_⟩
  rcases h.first_or_later hi hescaped with hfirst | ⟨j, -, hj⟩
  · exact hfirst
  · have hc : '"' = c := by simpa using List.mem_of_getElem? hj
    exact absurd hc.symm hquote

theorem escape (h : OpensOnce cs) (d : Char) : OpensOnce (cs ++ ['\\', d]) := by
  have hodd : slashesAtEnd (cs ++ ['\\']) = slashesAtEnd cs + 1 := by
    rw [slashesAtEnd_concat, if_pos rfl]
  have hsplit : cs ++ ['\\', d] = (cs ++ ['\\']) ++ [d] := by simp
  have heven := h.even
  constructor
  · rw [hsplit, slashesAtEnd_concat, hodd]
    split_ifs <;> omega
  · intro i hi hescaped
    rcases h.first_or_later hi hescaped with hfirst | ⟨j, rfl, hj⟩
    · exact hfirst
    · match j, hj with
      | 0, hj => simp at hj
      | 1, _ =>
        have hlast := isEscapedAt_length (cs ++ ['\\']) [d]
        rw [← hsplit, hodd, List.length_append, List.length_singleton, hescaped] at hlast
        simp at hlast
        omega

end OpensOnce

theorem opensOnce_flatMap (cs : List Char) : OpensOnce ('"' :: cs.flatMap escapeChar) := by
  induction cs using List.reverseRecOn with
  | nil =>
    refine ⟨by decide, fun i hi _ => ?_⟩
    obtain ⟨hlt, -⟩ := List.getElem?_eq_some_iff.mp hi
    simpa using hlt
  | append_singleton cs c ih =>
    have hbody : '"' :: (cs ++ [c]).flatMap escapeChar =
        ('"' :: cs.flatMap escapeChar) ++ escapeChar c := by simp
    rw [hbody]
    rcases escapeChar_cases c with ⟨d, hc⟩ | ⟨hc, hquote, hslash⟩
    · rw [hc]
      exact ih.escape d
    · rw [hc]
      exact ih.plain hquote hslash

theorem encloses_quote (s : String) : Encloses (quote s).toList s := by
  have htext : (quote s).toList = ('"' :: s.toList.flatMap escapeChar) ++ ['"'] := by
    rw [quote, String.toList_ofList]
  have hopens := opensOnce_flatMap s.toList
  refine ⟨fun i => ?_, ⟨lineEnd_notMem_quote (.inl rfl) s, lineEnd_notMem_quote (.inr rfl) s⟩,
    s.toList.flatMap escapeChar, htext, unescape?_flatMap_escapeChar s.toList⟩
  rw [htext]
  constructor
  · rintro ⟨hi, hescaped⟩
    rcases hopens.first_or_later hi hescaped with hfirst | ⟨j, rfl, hj⟩
    · exact .inl hfirst
    · obtain ⟨hlt, -⟩ := List.getElem?_eq_some_iff.mp hj
      rw [List.length_append]
      simp at hlt ⊢
      omega
  · rintro (rfl | hlast)
    · exact ⟨rfl, rfl⟩
    · obtain rfl : i = ('"' :: s.toList.flatMap escapeChar).length := by simpa using hlast
      refine ⟨by simp, ?_⟩
      rw [isEscapedAt_length, hopens.even]
      rfl

/-- The text of a plain literal is one value of the grammar, and that is the literal, exactly if no
more brackets nest in it than may be open. The text of every string is the string in quotes. -/
theorem text_reads_back (l : Literal) (h : l.isPlain = true) (isConst : Bool) (levels : Nat) :
    (readValue? isConst levels l.text).bind Value.literal? =
        (if l.bracketDepth ≤ levels then some l else none) ∧
      ∀ s : String, Encloses (string s).text.toList s :=
  ⟨readBack_of_isPlain h levels, encloses_quote⟩

/-- Strings that end in backslashes and quotes, the least integer, and names. -/
def mixedList : Literal :=
  .list [.string "a\\\"", .list [.string "", .string "\\", .list []], .int (-9223372036854775808),
    .enumValue "RED", .null, .bool true]

theorem mixedList_reads_back :
    mixedList.isPlain = true ∧
      (readValue? false Token.bracketBudget mixedList.text).bind Value.literal? = some mixedList ∧
      Encloses (string "a\\\"\n").text.toList "a\\\"\n" := by
  have hplain : mixedList.isPlain = true := by decide +kernel
  obtain ⟨hread, hstrings⟩ := text_reads_back mixedList hplain false Token.bracketBudget
  rw [if_pos (by decide +kernel)] at hread
  exact ⟨hplain, hread, hstrings _⟩

/-- Lists of one list each. -/
def nestedLists : Nat → Literal
  | 0 => .list []
  | n + 1 => .list [nestedLists n]

/-- Lists may nest deeper than brackets may be open in a document. -/
theorem nestedLists_not_read_back :
    (nestedLists 50).isPlain = true ∧
      (readValue? false Token.bracketBudget (nestedLists 50).text).bind Value.literal? ≠
        some (nestedLists 50) := by
  have hplain : (nestedLists 50).isPlain = true := by decide +kernel
  refine ⟨hplain, ?_⟩
  rw [readBack_of_isPlain hplain, if_neg (by decide +kernel)]
  exact Option.some_ne_none _ |>.symm

end Literal

end QueryPicker
