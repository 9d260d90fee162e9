import Mathlib
import QueryPicker.Document.Grammar
import QueryPicker.Proofs.WrittenText

/-!
# Reading what is written

The grammar reads the tokens of literals, argument lists and nested fields back as what they were
written for, and leaves the tokens that follow. The number of tokens is always enough as a bound on
the steps.
-/

namespace QueryPicker

namespace Document

theorem ok_bind {ε α β : Type} (a : α) (f : α → Except ε β) : (Except.ok a >>= f) = f a := rfl

/-- The first sequence is made of the tokens and then the second sequence. -/
inductive Spans : Tokens → List Token → Tokens → Prop where
  | nil {ts} : Spans ts [] ts
  | cons {pos t ts tokens rest} : Spans ts tokens rest →
      Spans (⟨pos, .token t⟩ :: ts) (t :: tokens) rest

namespace Spans

variable {ts rest : Tokens} {as bs tokens : List Token}

theorem split (h : Spans ts (as ++ bs) rest) :
    ∃ middle, Spans ts as middle ∧ Spans middle bs rest := by
  induction as generalizing ts with
  | nil => exact ⟨ts, .nil, h⟩
  | cons a as ih =>
    cases h with
    | cons h =>
      obtain ⟨middle, has, hbs⟩ := ih h
      exact ⟨middle, .cons has, hbs⟩

theorem uncons {t : Token} (h : Spans ts (t :: tokens) rest) :
    ∃ pos after, ts = ⟨pos, .token t⟩ :: after ∧ Spans after tokens rest := by
  cases h with
  | cons h => exact ⟨_, _, rfl, h⟩

theorem length_eq (h : Spans ts tokens rest) : ts.length = tokens.length + rest.length := by
  induction h with
  | nil => simp
  | cons _ ih => simp [ih]; omega

theorem of_map_lexeme {last : Lexeme} (h : ts.map (·.lexeme) = tokens.map .token ++ [last]) :
    ∃ pos, Spans ts tokens [⟨pos, last⟩] := by
  induction tokens generalizing ts with
  | nil =>
    obtain ⟨t, rfl, ht⟩ := List.map_eq_singleton_iff.mp h
    exact ⟨t.position, by rw [← ht]; exact .nil⟩
  | cons token tokens ih =>
    obtain ⟨t, ts, rfl, ht, hts⟩ := List.map_eq_cons_iff.mp h
    obtain ⟨pos, hspans⟩ := ih hts
    refine ⟨pos, ?_⟩
    obtain ⟨position, lexeme⟩ := t
    obtain rfl : lexeme = .token token := ht
    exact .cons hspans

end Spans

theorem digitsValue_toDigits (n : Nat) : digitsValue (Nat.toDigits 10 n) = n := by
  induction n using Nat.strongRecOn with
  | ind n ih =>
    have hdigit : ∀ d < 10, (Nat.digitChar d).toNat - 48 = d := by decide
    by_cases hlt : n < 10
    · rw [Nat.toDigits_of_lt_base hlt]
      simpa [digitsValue] using hdigit n hlt
    · have hdiv := ih (n / 10) (by omega)
      rw [digitsValue] at hdiv ⊢
      rw [Nat.toDigits_of_base_le (by decide) (by omega), List.foldl_append, hdiv,
        List.foldl_cons, List.foldl_nil, hdigit (n % 10) (Nat.mod_lt _ (by decide))]
      omega

theorem intValue?_toString {n : Int} (h : -(Nat.pow 2 63 : Int) ≤ n ∧ n < Nat.pow 2 63) :
    intValue? (toString n).toList = some n := by
  rw [Literal.toList_toString_int]
  unfold intValue?
  by_cases hneg : n < 0
  · have hvalue : -(digitsValue (Nat.toDigits 10 n.natAbs) : Int) = n := by
      rw [digitsValue_toDigits]
      omega
    simp only [hneg, decide_true, Token.sign, if_true, List.cons_append, List.nil_append, hvalue,
      if_pos h]
  · have hvalue : (digitsValue (Nat.toDigits 10 n.natAbs) : Int) = n := by
      rw [digitsValue_toDigits]
      omega
    simp only [hneg, decide_false, Token.sign, Bool.false_eq_true, if_false, List.nil_append]
    split
    · rename_i digits heq
      have hdigit : ('-').isDigit = true :=
        Nat.isDigit_of_mem_toDigits (by decide) (by decide) (heq ▸ List.mem_cons_self)
      exact absurd hdigit (by decide)
    · simp only [hvalue, if_pos h]

theorem unescape?_flatMap_escapeChar (cs : List Char) :
    unescape? (cs.flatMap Literal.escapeChar) = some cs := by
  induction cs with
  | nil => rfl
  | cons c cs ih =>
    rw [List.flatMap_cons]
    by_cases hquote : c = '"'
    · subst hquote
      simp [Literal.escapeChar, unescape?, simpleEscape?, ih]
    by_cases hslash : c = '\\'
    · subst hslash
      simp [Literal.escapeChar, unescape?, simpleEscape?, ih]
    by_cases hfeed : c = '\n'
    · subst hfeed
      simp [Literal.escapeChar, unescape?, simpleEscape?, ih]
    by_cases hreturn : c = '\r'
    · subst hreturn
      simp [Literal.escapeChar, unescape?, simpleEscape?, ih]
    by_cases htab : c = '\t'
    · subst htab
      simp [Literal.escapeChar, unescape?, simpleEscape?, ih]
    · have hescape : Literal.escapeChar c = [c] := by
        simp [Literal.escapeChar, hquote, hslash, hfeed, hreturn, htab]
      rw [hescape, List.singleton_append, unescape?.eq_def]
      split <;> simp_all

end Document

namespace Literal

open Document

mutual

/-- What the text of the literal means in a document. -/
def toValue : Literal → Value
  | null => .null
  | bool b => .bool b
  | int n => .int n
  | float x => .float (x.write floatLayout)
  | string s => .string s
  | enumValue name => .ofName name
  | list items => .list (toValues items)

def toValues : List Literal → List Value
  | [] => []
  | item :: items => toValue item :: toValues items

end

theorem tokens_ne_nil (l : Literal) : 0 < l.tokens.length := by
  cases l <;> simp [tokens]

/-- No literal starts with the bracket that closes a list. -/
theorem not_startsWith_of_spans {l : Literal} {ts rest : Tokens} {more : List Token}
    (h : Spans ts (l.tokens ++ more) rest) : startsWith .bracketClose ts = false := by
  cases l <;>
    · rw [tokens] at h
      obtain ⟨pos, after, rfl, -⟩ := h.uncons
      rfl

variable {isConst : Bool}

theorem values_succ {fuel : Nat} {ts : Tokens} (h : startsWith .bracketClose ts = false) :
    values isConst (fuel + 1) ts = (do
      let (item, ts) ← Document.value isConst fuel ts
      let (items, ts) ← values isConst fuel ts
      return (item :: items, ts)) := by
  rw [values]
  rintro pos rest rfl
  simp [startsWith] at h

mutual

theorem value_of_spans : ∀ (l : Literal) (fuel : Nat) {ts rest : Tokens}, l.isWellFormed = true →
    Spans ts l.tokens rest → l.tokens.length ≤ fuel →
    Document.value isConst fuel ts = .ok (l.toValue, rest)
  | null, fuel, ts, rest, _, hspans, hfuel => by
    obtain ⟨pos, after, rfl, ⟨⟩⟩ := hspans.uncons
    obtain ⟨fuel, rfl⟩ := Nat.exists_eq_add_of_le' hfuel
    rfl
  | bool b, fuel, ts, rest, _, hspans, hfuel => by
    obtain ⟨pos, after, rfl, ⟨⟩⟩ := hspans.uncons
    obtain ⟨fuel, rfl⟩ := Nat.exists_eq_add_of_le' hfuel
    cases b <;> rfl
  | int n, fuel, ts, rest, h, hspans, hfuel => by
    obtain ⟨pos, after, rfl, ⟨⟩⟩ := hspans.uncons
    obtain ⟨fuel, rfl⟩ := Nat.exists_eq_add_of_le' hfuel
    have hint := intValue?_toString (of_decide_eq_true h)
    show Document.value isConst (fuel + 1) _ = _
    simp only [Document.value, hint, toValue]
  | float x, fuel, ts, rest, h, hspans, hfuel => by
    obtain ⟨pos, after, rfl, ⟨⟩⟩ := hspans.uncons
    obtain ⟨fuel, rfl⟩ := Nat.exists_eq_add_of_le' hfuel
    obtain ⟨exponent?, hwritten, -⟩ := Binary64.written_write (x := x) h
    have hdigits := Binary64.hasExponentDigits_of_written hwritten
    show Document.value isConst (fuel + 1) _ = _
    simp [Document.value, hdigits, toValue]
  | string s, fuel, ts, rest, _, hspans, hfuel => by
    obtain ⟨pos, after, rfl, ⟨⟩⟩ := hspans.uncons
    obtain ⟨fuel, rfl⟩ := Nat.exists_eq_add_of_le' hfuel
    show Document.value isConst (fuel + 1) _ = _
    simp [Document.value, unescape?_flatMap_escapeChar, toValue]
  | enumValue name, fuel, ts, rest, _, hspans, hfuel => by
    obtain ⟨pos, after, rfl, ⟨⟩⟩ := hspans.uncons
    obtain ⟨fuel, rfl⟩ := Nat.exists_eq_add_of_le' hfuel
    show Document.value isConst (fuel + 1) _ = _
    simp [Document.value, toValue]
  | list items, fuel, ts, rest, h, hspans, hfuel => by
    rw [tokens, List.cons_append] at hspans
    obtain ⟨pos, after, rfl, hafter⟩ := hspans.uncons
    obtain ⟨fuel, rfl⟩ := Nat.exists_eq_add_of_le' (Nat.one_le_of_lt hfuel)
    have hitems := values_of_spans items fuel h hafter
      (by simp [tokens] at hfuel ⊢; omega)
    simp [Document.value, hitems, toValue]

theorem values_of_spans : ∀ (items : List Literal) (fuel : Nat) {ts rest : Tokens},
    areWellFormed items = true →
    Spans ts (tokensOfAll items ++ [.punctuator .bracketClose]) rest →
    (tokensOfAll items).length + 1 ≤ fuel →
    values isConst fuel ts = .ok (toValues items, rest)
  | [], fuel, ts, rest, _, hspans, hfuel => by
    obtain ⟨pos, after, rfl, ⟨⟩⟩ := hspans.uncons
    obtain ⟨fuel, rfl⟩ := Nat.exists_eq_add_of_le' hfuel
    rfl
  | item :: items, fuel, ts, rest, h, hspans, hfuel => by
    rw [areWellFormed, Bool.and_eq_true] at h
    rw [tokensOfAll, List.append_assoc] at hspans
    rw [tokensOfAll, List.length_append] at hfuel
    have hpos := item.tokens_ne_nil
    obtain ⟨fuel, rfl⟩ := Nat.exists_eq_add_of_le' (show 1 ≤ fuel by omega)
    have hstart := not_startsWith_of_spans hspans
    obtain ⟨middle, hitem, hitems⟩ := hspans.split
    have hvalue := value_of_spans item fuel h.1 hitem (by omega)
    have hvalues := values_of_spans items fuel h.2 hitems (by omega)
    simp only [values_succ hstart, hvalue, hvalues, ok_bind]
    rfl

end

end Literal

theorem length_le_length_flatMap {α β : Type} {f : α → List β} {as : List α}
    (h : ∀ a ∈ as, 1 ≤ (f a).length) : as.length ≤ (as.flatMap f).length := by
  rw [List.length_flatMap, ← List.length_map (fun a => (f a).length)]
  apply List.length_le_sum_of_one_le
  intro n hn
  obtain ⟨a, ha, rfl⟩ := List.mem_map.mp hn
  exact h a ha

namespace Arguments

open Document

def toValues (args : Arguments) : List (String × Value) :=
  args.map fun (name, value) => (name, value.toValue)

theorem argument_of_spans {name : String} {l : Literal} {ts rest : Tokens}
    (h : l.isWellFormed = true) (hspans : Spans ts (tokensOfOne (name, l)) rest) :
    argument ts = .ok ((name, l.toValue), rest) := by
  obtain ⟨pos, after, rfl, hafter⟩ := hspans.uncons
  obtain ⟨pos', ts, rfl, hts⟩ := hafter.uncons
  have hlength : ts.length = l.tokens.length + rest.length := hts.length_eq
  have hfuel : l.tokens.length ≤ steps ts := by
    unfold steps
    omega
  have hvalue : value false (steps ts) ts = .ok (l.toValue, rest) :=
    l.value_of_spans (steps ts) h hts hfuel
  simp only [argument, expectName, expect, if_true, hvalue, ok_bind, String.ofList_toList]
  rfl

theorem argumentsTail_of_spans {args : Arguments} {fuel : Nat} {ts rest : Tokens}
    (h : args.isWellFormed = true)
    (hspans : Spans ts (args.flatMap tokensOfOne ++ [.punctuator .parenClose]) rest)
    (hfuel : args.length + 1 ≤ fuel) :
    argumentsTail fuel ts = .ok (toValues args, rest) := by
  induction args generalizing fuel ts with
  | nil =>
    obtain ⟨pos, after, rfl, ⟨⟩⟩ := hspans.uncons
    obtain ⟨fuel, rfl⟩ := Nat.exists_eq_add_of_le' hfuel
    rfl
  | cons arg args ih =>
    simp only [isWellFormed, List.all_cons, Bool.and_eq_true] at h
    rw [List.flatMap_cons, List.append_assoc] at hspans
    obtain ⟨fuel, rfl⟩ := Nat.exists_eq_add_of_le' (Nat.one_le_of_lt hfuel)
    obtain ⟨middle, harg, hargs⟩ := hspans.split
    have hstart : startsWith .parenClose ts = false := by
      obtain ⟨pos, after, rfl, -⟩ := harg.uncons
      rfl
    have hless : args.length + 1 ≤ fuel := by simpa using hfuel
    have hmore := ih h.2 hargs hless
    rw [argumentsTail, if_neg (by simp [hstart])]
    simp only [argument_of_spans h.1.2 harg, hmore, ok_bind]
    rfl

theorem arguments_of_spans {args : Arguments} {ts rest : Tokens} (h : args.isWellFormed = true)
    (hspans : Spans ts args.tokens rest) (hrest : startsWith .parenOpen rest = false) :
    arguments ts = .ok (toValues args, rest) := by
  cases args with
  | nil =>
    cases hspans
    rw [arguments, if_neg (by simp [hrest])]
    rfl
  | cons arg args =>
    simp only [isWellFormed, List.all_cons, Bool.and_eq_true] at h
    rw [tokens, List.isEmpty_cons, if_neg Bool.false_ne_true, List.flatMap_cons, List.cons_append,
      List.append_assoc] at hspans
    obtain ⟨pos, after, rfl, hafter⟩ := hspans.uncons
    obtain ⟨middle, harg, hargs⟩ := hafter.split
    have hlength : args.length + 1 ≤ steps middle := by
      have hmiddle := hargs.length_eq
      have hle : args.length ≤ (args.flatMap tokensOfOne).length :=
        length_le_length_flatMap fun arg _ => by simp [tokensOfOne]
      rw [List.length_append] at hmiddle
      unfold steps
      omega
    have hstart : startsWith .parenOpen (⟨pos, .token (.punctuator .parenOpen)⟩ :: after) =
        true := rfl
    rw [arguments, if_pos hstart]
    simp only [List.drop_one, List.tail_cons, argument_of_spans h.1.2 harg,
      argumentsTail_of_spans h.2 hargs hlength, ok_bind]
    rfl

end Arguments

namespace FieldTree

open Document

mutual

def toSelection : FieldTree → Selection
  | node name args children => .field none name args.toValues [] (toSelections children)

def toSelections : List FieldTree → List Selection
  | [] => []
  | tree :: trees => toSelection tree :: toSelections trees

end

/-- Another field follows, or the end of the fields in braces. -/
def continuesBlock : Tokens → Bool
  | ⟨_, .token (.name _)⟩ :: _ => true
  | ⟨_, .token (.punctuator .braceClose)⟩ :: _ => true
  | _ => false

theorem not_startsWith_of_continuesBlock {ts : Tokens} (h : continuesBlock ts = true)
    {p : Punctuator} (hp : p ≠ .braceClose) : startsWith p ts = false := by
  unfold continuesBlock at h
  split at h
  · rfl
  · simpa [startsWith] using hp.symm
  · cases h

theorem continuesBlock_of_spans {trees : List FieldTree} {ts rest : Tokens}
    (h : Spans ts (tokensOfAll trees ++ [.punctuator .braceClose]) rest) :
    continuesBlock ts = true := by
  cases trees with
  | nil =>
    obtain ⟨pos, after, rfl, -⟩ := h.uncons
    rfl
  | cons tree trees =>
    obtain ⟨name, args, children⟩ := tree
    rw [tokensOfAll, tokens] at h
    obtain ⟨pos, after, rfl, -⟩ := h.uncons
    rfl

theorem directives_eq_nil {ts : Tokens} (h : startsWith .atSign ts = false) :
    directives ts = .ok ([], ts) := by
  rw [directives, steps, directivesTail, if_neg (by simp [h])]

/-- A field up to its arguments: what follows them decides whether fields are nested in it. -/
theorem selection_field {name : String} {args : Arguments} {fuel : Nat} {pos : Position}
    {after rest : Tokens} (h : args.isWellFormed = true) (hspans : Spans after args.tokens rest)
    (hrest : ∀ p ∈ [Punctuator.colon, .parenOpen, .atSign], startsWith p rest = false) :
    selection (fuel + 1) (⟨pos, .token (.name name.toList)⟩ :: after) =
      if startsWith .braceOpen rest then (do
        let (sels, ts) ← selectionSet fuel rest
        return (.field none name args.toValues [] sels, ts))
      else .ok (.field none name args.toValues [] [], rest) := by
  have hcolon : startsWith .colon after = false := by
    cases args with
    | nil =>
      cases hspans
      exact hrest .colon (by simp)
    | cons arg args =>
      obtain ⟨pos', more, rfl, -⟩ := hspans.uncons
      rfl
  have hargs := Arguments.arguments_of_spans h hspans (hrest .parenOpen (by simp))
  have hdirectives := directives_eq_nil (hrest .atSign (by simp))
  rw [selection, aliased, if_neg (by simp [hcolon]), String.ofList_toList]
  simp only [hargs, hdirectives, ok_bind]
  rfl

theorem selectionSet_succ {fuel : Nat} {pos : Position} {after middle rest : Tokens}
    {sel : Selection} {sels : List Selection} (hsel : selection fuel after = .ok (sel, middle))
    (hsels : selectionsTail fuel middle = .ok (sels, rest)) :
    selectionSet (fuel + 1) (⟨pos, .token (.punctuator .braceOpen)⟩ :: after) =
      .ok (sel :: sels, rest) := by
  simp only [selectionSet, expect, if_true, hsel, hsels, ok_bind]
  rfl

mutual

theorem selection_of_spans : ∀ (tree : FieldTree) (fuel : Nat) {ts rest : Tokens},
    tree.isWellFormed = true → Spans ts tree.tokens rest → tree.tokens.length ≤ fuel →
    continuesBlock rest = true → selection fuel ts = .ok (tree.toSelection, rest)
  | node name args [], fuel, ts, rest, h, hspans, hfuel, hrest => by
    obtain ⟨-, hwf, -⟩ := isWellFormed_node.mp h
    rw [tokens, List.isEmpty_nil, if_pos rfl, List.append_nil] at hspans
    obtain ⟨pos, after, rfl, hargs⟩ := hspans.uncons
    obtain ⟨fuel, rfl⟩ := Nat.exists_eq_add_of_le' (show 1 ≤ fuel by simp [tokens] at hfuel; omega)
    have hplain : ∀ p : Punctuator, p ≠ .braceClose → startsWith p rest = false :=
      fun p hp => not_startsWith_of_continuesBlock hrest hp
    rw [selection_field hwf hargs (by simp [hplain]), if_neg (by simp [hplain])]
    rfl
  | node name args (child :: more), fuel, ts, rest, h, hspans, hfuel, hrest => by
    obtain ⟨-, hwf, hchildren⟩ := isWellFormed_node.mp h
    obtain ⟨hfirst, hothers⟩ := areWellFormed_cons.mp hchildren
    rw [tokens, List.isEmpty_cons, if_neg Bool.false_ne_true, List.length_append,
      List.length_cons, List.length_append, List.length_cons, tokensOfAll,
      List.length_append] at hfuel
    rw [tokens, List.isEmpty_cons, if_neg Bool.false_ne_true, List.cons_append,
      List.cons_append] at hspans
    obtain ⟨pos, after, rfl, hafter⟩ := hspans.uncons
    obtain ⟨middle, hargs, hmiddle⟩ := hafter.split
    obtain ⟨pos', inner, rfl, hinner⟩ := hmiddle.uncons
    rw [tokensOfAll, List.append_assoc] at hinner
    obtain ⟨next, hchild, hmore⟩ := hinner.split
    obtain ⟨fuel, rfl⟩ := Nat.exists_eq_add_of_le' (show 2 ≤ fuel by omega)
    have hsel := selection_of_spans child fuel hfirst hchild (by omega)
      (continuesBlock_of_spans hmore)
    have hsels := selectionsTail_of_spans more fuel hothers hmore (by simp at hfuel; omega)
    rw [selection_field hwf hargs (by simp [startsWith]), if_pos (by simp [startsWith]),
      selectionSet_succ hsel hsels]
    rfl

theorem selectionsTail_of_spans : ∀ (trees : List FieldTree) (fuel : Nat) {ts rest : Tokens},
    areWellFormed trees = true →
    Spans ts (tokensOfAll trees ++ [.punctuator .braceClose]) rest →
    (tokensOfAll trees).length + 1 ≤ fuel →
    selectionsTail fuel ts = .ok (toSelections trees, rest)
  | [], fuel, ts, rest, _, hspans, hfuel => by
    obtain ⟨pos, after, rfl, ⟨⟩⟩ := hspans.uncons
    obtain ⟨fuel, rfl⟩ := Nat.exists_eq_add_of_le' hfuel
    rfl
  | tree :: trees, fuel, ts, rest, h, hspans, hfuel => by
    rw [areWellFormed_cons] at h
    rw [tokensOfAll, List.append_assoc] at hspans
    rw [tokensOfAll, List.length_append] at hfuel
    obtain ⟨middle, htree, htrees⟩ := hspans.split
    have hpos : 0 < tree.tokens.length := by
      obtain ⟨name, args, children⟩ := tree
      simp [tokens]
    have hstart : startsWith .braceClose ts = false := by
      obtain ⟨name, args, children⟩ := tree
      rw [tokens, List.cons_append] at htree
      obtain ⟨pos, after, rfl, -⟩ := htree.uncons
      rfl
    obtain ⟨fuel, rfl⟩ := Nat.exists_eq_add_of_le' (show 1 ≤ fuel by omega)
    have hsel := selection_of_spans tree fuel h.1 htree (by omega)
      (continuesBlock_of_spans htrees)
    have hsels := selectionsTail_of_spans trees fuel h.2 htrees (by omega)
    rw [selectionsTail, if_neg (by simp [hstart])]
    simp only [hsel, hsels, ok_bind]
    rfl

end

theorem selectionSet_of_spans {trees : List FieldTree} {ts rest : Tokens}
    (h : areWellFormed trees = true) (hne : trees ≠ [])
    (hspans : Spans ts (.punctuator .braceOpen :: tokensOfAll trees ++ [.punctuator .braceClose])
      rest) : selectionSet (steps ts) ts = .ok (toSelections trees, rest) := by
  obtain ⟨tree, trees, rfl⟩ := List.exists_cons_of_ne_nil hne
  have hlength := hspans.length_eq
  rw [areWellFormed_cons] at h
  rw [List.cons_append] at hspans
  obtain ⟨pos, after, rfl, hafter⟩ := hspans.uncons
  rw [tokensOfAll, List.append_assoc] at hafter
  obtain ⟨middle, htree, htrees⟩ := hafter.split
  simp only [tokensOfAll, List.length_append, List.length_cons] at hlength
  have hsteps : steps (⟨pos, .token (.punctuator .braceOpen)⟩ :: after) =
      2 * after.length + 5 + 1 := by
    simp only [steps, List.length_cons]
    omega
  rw [hsteps]
  exact selectionSet_succ
    (selection_of_spans tree _ h.1 htree (by omega) (continuesBlock_of_spans htrees))
    (selectionsTail_of_spans trees _ h.2 htrees (by omega))

theorem definition_of_spans {op : Operation} {trees : List FieldTree} {ts rest : Tokens}
    (h : areWellFormed trees = true) (hne : trees ≠ [])
    (hspans : Spans ts (operationTokens op trees) rest) :
    definition ts = .ok (.operation op none (toSelections trees), rest) := by
  obtain ⟨pos, after, rfl, hafter⟩ := hspans.uncons
  have hset := selectionSet_of_spans h hne hafter
  obtain ⟨pos', inner, rfl, -⟩ := hafter.uncons
  have hdirectives : directives (⟨pos', .token (.punctuator .braceOpen)⟩ :: inner) =
      .ok ([], ⟨pos', .token (.punctuator .braceOpen)⟩ :: inner) := directives_eq_nil rfl
  have hvariables : variableDefinitions (⟨pos', .token (.punctuator .braceOpen)⟩ :: inner) =
      .ok (⟨pos', .token (.punctuator .braceOpen)⟩ :: inner) := rfl
  simp only [definition, name?, String.ofList_toList, op.ofKeyword?_keyword, operationTail,
    hvariables, hdirectives, hset, ok_bind]
  rfl

/-- Operations with the fields selected in them. -/
abbrev Operations := List (Operation × List FieldTree)

def document (operations : Operations) : Document :=
  operations.map fun o => .operation o.1 none (toSelections o.2)

theorem definitionsTail_of_spans {operations : Operations} {fuel : Nat} {ts : Tokens}
    {pos : Position} (h : ∀ o ∈ operations, areWellFormed o.2 = true ∧ o.2 ≠ [])
    (hspans : Spans ts (operations.flatMap fun o => operationTokens o.1 o.2) [⟨pos, .finish⟩])
    (hfuel : operations.length + 1 ≤ fuel) :
    definitionsTail fuel ts = .ok (document operations) := by
  induction operations generalizing fuel ts with
  | nil =>
    cases hspans
    obtain ⟨fuel, rfl⟩ := Nat.exists_eq_add_of_le' hfuel
    rfl
  | cons o operations ih =>
    rw [List.flatMap_cons] at hspans
    obtain ⟨middle, ho, hmore⟩ := hspans.split
    obtain ⟨hwf, hne⟩ := h o List.mem_cons_self
    obtain ⟨fuel, rfl⟩ := Nat.exists_eq_add_of_le' (Nat.one_le_of_lt hfuel)
    have hdefinition := definition_of_spans hwf hne ho
    have hless : operations.length + 1 ≤ fuel := by simpa using hfuel
    have htail := ih (fun o ho => h o (List.mem_cons_of_mem _ ho)) hmore hless
    obtain ⟨pos', after, rfl, -⟩ := ho.uncons
    simp only [definitionsTail, hdefinition, htail, ok_bind]
    rfl

theorem ofTokens_of_spans {operations : Operations} {ts : Tokens} {pos : Position}
    (h : ∀ o ∈ operations, areWellFormed o.2 = true ∧ o.2 ≠ []) (hne : operations ≠ [])
    (hspans : Spans ts (operations.flatMap fun o => operationTokens o.1 o.2) [⟨pos, .finish⟩]) :
    ofTokens ts = .ok (document operations) := by
  obtain ⟨o, operations, rfl⟩ := List.exists_cons_of_ne_nil hne
  rw [List.flatMap_cons] at hspans
  obtain ⟨middle, ho, hmore⟩ := hspans.split
  obtain ⟨hwf, hnonempty⟩ := h o List.mem_cons_self
  have hfuel : operations.length + 1 ≤ steps middle := by
    have hmiddle := hmore.length_eq
    have hle : operations.length ≤
        (operations.flatMap fun o => operationTokens o.1 o.2).length :=
      length_le_length_flatMap fun o _ => by simp [operationTokens]
    unfold steps
    omega
  have htail := definitionsTail_of_spans (fun o ho => h o (List.mem_cons_of_mem _ ho)) hmore hfuel
  simp only [ofTokens, definition_of_spans hwf hnonempty ho, htail, ok_bind]
  rfl

end FieldTree

end QueryPicker
