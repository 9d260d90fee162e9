import Mathlib
import QueryPicker.Document.FieldTree
import QueryPicker.Proofs.DecimalText

/-!
# Written text as tokens

The tokens of literals, of argument lists and of nested fields, beside the text that is written for
them. Every such text is read as its tokens as long as all numbers in it are readable; otherwise
the first number that is not makes the rest of the text unreadable.
-/

namespace QueryPicker

theorem intercalate_cons {α : Type} (sep l : List α) (ls : List (List α)) :
    sep.intercalate (l :: ls) = l ++ ls.flatMap (sep ++ ·) := by
  induction ls generalizing l with
  | nil => simp
  | cons m ls ih => rw [List.intercalate_cons_cons, ih]; simp

namespace Located

open Token

/-- What reading does with a piece of text, whatever ends the piece: it finds the tokens, or it
meets text that is no token. -/
structure Scans (cs : List Char) (ts : List Token) (sound : Bool) : Prop where
  spells : sound = true → ∀ {rest us last}, Ends rest → Reads rest us last →
    Reads (cs ++ rest) (ts ++ us) last
  breaks : sound = false → ∀ {rest}, Ends rest → ∃ us, Reads (cs ++ rest) us .junk

namespace Scans

variable {a b cs : List Char} {ts us : List Token} {x y : Bool}

theorem of_spells (h : ∀ {rest us last}, Ends rest → Reads rest us last →
    Reads (cs ++ rest) (ts ++ us) last) : Scans cs ts true :=
  ⟨fun _ => h, fun hfalse => by cases hfalse⟩

theorem nil : Scans [] [] true := of_spells fun _ h => h

theorem append (ha : Scans a ts x) (hb : Scans b us y) (hends : Ends b) :
    Scans (a ++ b) (ts ++ us) (x && y) := by
  constructor
  · intro hxy rest vs last hr h
    obtain ⟨hx, hy⟩ := Bool.and_eq_true_iff.mp hxy
    rw [List.append_assoc, List.append_assoc]
    exact ha.spells hx (ends_append hends hr) (hb.spells hy hr h)
  · intro hxy rest hr
    rw [List.append_assoc]
    cases x with
    | false => exact ha.breaks rfl (ends_append hends hr)
    | true =>
      obtain ⟨vs, hvs⟩ := hb.breaks (by simpa using hxy) hr
      exact ⟨ts ++ vs, ha.spells rfl (ends_append hends hr) hvs⟩

theorem skip {c : Char} (hc : isSeparator c = true) (h : Scans cs ts x) : Scans (c :: cs) ts x := by
  constructor
  · intro hx rest us last hr hrest
    exact .skip hc (h.spells hx hr hrest)
  · intro hx rest hr
    obtain ⟨us, hus⟩ := h.breaks hx hr
    exact ⟨us, .skip hc hus⟩

theorem skipAll {sep : List Char} (hsep : sep.all isSeparator = true) (h : Scans cs ts x) :
    Scans (sep ++ cs) ts x := by
  induction sep with
  | nil => exact h
  | cons c sep ih =>
    rw [List.all_cons, Bool.and_eq_true] at hsep
    exact skip hsep.1 (ih hsep.2)

theorem punctuator (p : Punctuator) (h : Scans cs ts x) :
    Scans (p.text ++ cs) (.punctuator p :: ts) x := by
  constructor
  · intro hx rest us last hr hrest
    rw [List.append_assoc]
    exact reads_punctuator p (h.spells hx hr hrest)
  · intro hx rest hr
    obtain ⟨us, hus⟩ := h.breaks hx hr
    rw [List.append_assoc]
    exact ⟨.punctuator p :: us, reads_punctuator p hus⟩

theorem name {n : List Char} (h : isNameText n = true) : Scans n [.name n] true :=
  of_spells fun hr hrest => reads_name h hr hrest

theorem number {t : Token} (hrun : RunsAsNumber cs)
    (ht : ofNumberText? cs = if x then some t else none) : Scans cs [t] x := by
  obtain ⟨c, rest, rfl, hc, hcs⟩ := hrun
  rw [List.all_cons, Bool.and_eq_true] at hcs
  cases x with
  | true => exact of_spells fun hr hrest => reads_number hc hcs.2 hr ht hrest
  | false =>
    exact ⟨fun htrue => (by cases htrue), fun _ {rest} hr => ⟨[], reads_badNumber hc hcs.2 hr ht⟩⟩

section Lists

variable {α : Type} {f : α → List Char} {g : α → List Token} {r : α → Bool} {xs : List α}

theorem flatMap (xs : List α) (h : ∀ x ∈ xs, Scans (f x) (g x) (r x))
    (hends : ∀ x ∈ xs, Ends (f x)) :
    Scans (xs.flatMap f) (xs.flatMap g) (xs.all r) ∧ Ends (xs.flatMap f) := by
  induction xs with
  | nil => exact ⟨nil, ends_nil⟩
  | cons x xs ih =>
    obtain ⟨hscans, hxs⟩ := ih (fun z hz => h z (List.mem_cons_of_mem x hz))
      (fun z hz => hends z (List.mem_cons_of_mem x hz))
    exact ⟨(h x List.mem_cons_self).append hscans hxs,
      ends_append (hends x List.mem_cons_self) hxs⟩

/-- Pieces with the same separators between them. -/
theorem intercalate {c : Char} {sep : List Char} (hsep : (c :: sep).all isSeparator = true)
    (hc : endsNumber c = true) (h : ∀ x ∈ xs, Scans (f x) (g x) (r x)) :
    Scans ((c :: sep).intercalate (xs.map f)) (xs.flatMap g) (xs.all r) := by
  cases xs with
  | nil => exact nil
  | cons x xs =>
    rw [List.map_cons, intercalate_cons, List.flatMap_map]
    obtain ⟨hscans, hends⟩ := flatMap (f := fun z => (c :: sep) ++ f z) (g := g) (r := r) xs
      (fun z hz => skipAll hsep (h z (List.mem_cons_of_mem x hz)))
      (fun z _ => ends_cons hc)
    exact (h x List.mem_cons_self).append hscans hends

end Lists

end Scans

end Located

/-- The names that documents can write. -/
def isName (s : String) : Bool := Token.isNameText s.toList

namespace Literal

mutual

/-- What a selected field's argument can hold: integers of 64 bits, finite numbers, and enum values
that are names. -/
def isWellFormed : Literal → Bool
  | int n => decide (-(Nat.pow 2 63 : Int) ≤ n ∧ n < Nat.pow 2 63)
  | float x => x.isFinite
  | enumValue name => isName name
  | list items => areWellFormed items
  | _ => true

def areWellFormed : List Literal → Bool
  | [] => true
  | item :: items => isWellFormed item && areWellFormed items

end

mutual

/-- Whether all numbers in the literal are readable. -/
def isReadable : Literal → Bool
  | float x => x.isReadable
  | list items => areReadable items
  | _ => true

def areReadable : List Literal → Bool
  | [] => true
  | item :: items => isReadable item && areReadable items

end

mutual

def tokens : Literal → List Token
  | null => [.name "null".toList]
  | bool b => [.name (if b then "true" else "false").toList]
  | int n => [.int (toString n).toList]
  | float x => [.float (x.write floatLayout).toList]
  | string s => [.string (s.toList.flatMap escapeChar)]
  | enumValue name => [.name name.toList]
  | list items => .punctuator .bracketOpen :: tokensOfAll items ++ [.punctuator .bracketClose]

def tokensOfAll : List Literal → List Token
  | [] => []
  | item :: items => tokens item ++ tokensOfAll items

end

theorem texts_eq (items : List Literal) : texts items = items.map text := by
  induction items with
  | nil => rfl
  | cons item items ih => rw [texts, ih, List.map_cons]

theorem tokensOfAll_eq (items : List Literal) : tokensOfAll items = items.flatMap tokens := by
  induction items with
  | nil => rfl
  | cons item items ih => rw [tokensOfAll, ih, List.flatMap_cons]

theorem areReadable_eq (items : List Literal) : areReadable items = items.all isReadable := by
  induction items with
  | nil => rfl
  | cons item items ih => rw [areReadable, ih, List.all_cons]

open Located

theorem stringEnd?_flatMap_escapeChar (cs rest : List Char) :
    Token.stringEnd? false (cs.flatMap escapeChar ++ '"' :: rest) =
      some (cs.flatMap escapeChar, rest) := by
  induction cs with
  | nil => rfl
  | cons c cs ih =>
    rw [List.flatMap_cons, List.append_assoc]
    by_cases hquote : c = '"'
    · subst hquote
      simp [escapeChar, Token.stringEnd?, ih]
    by_cases hslash : c = '\\'
    · subst hslash
      simp [escapeChar, Token.stringEnd?, ih]
    by_cases hfeed : c = '\n'
    · subst hfeed
      simp [escapeChar, Token.stringEnd?, ih]
    by_cases hreturn : c = '\r'
    · subst hreturn
      simp [escapeChar, Token.stringEnd?, ih]
    by_cases htab : c = '\t'
    · subst htab
      simp [escapeChar, Token.stringEnd?, ih]
    · have hescape : escapeChar c = [c] := by
        simp [escapeChar, hquote, hslash, hfeed, hreturn, htab]
      have hnext : (c == '\\') = false := by simpa using hslash
      rw [hescape, List.singleton_append, List.singleton_append, Token.stringEnd?,
        if_neg (by simp [hquote]), if_neg hfeed, hnext, Bool.and_false, ih]
      rfl

theorem scans_quote (s : String) :
    Scans (quote s).toList [.string (s.toList.flatMap escapeChar)] true := by
  apply Scans.of_spells
  intro rest ts last hr hrest
  have htake := Token.take?_string (stringEnd?_flatMap_escapeChar s.toList _) hr
  rw [quote, String.toList_ofList]
  have happend : ∀ rest, '"' :: s.toList.flatMap escapeChar ++ ['"'] ++ rest =
      '"' :: (s.toList.flatMap escapeChar ++ '"' :: rest) := by simp
  rw [happend]
  exact .token (by decide) htake hrest

theorem toList_toString_int (n : Int) : (toString n).toList =
    Token.sign (decide (n < 0)) ++ Nat.toDigits 10 n.natAbs := by
  cases n with
  | ofNat n => exact Binary64.toList_toString n
  | negSucc n =>
    have hsign : decide (Int.negSucc n < 0) = true := by simp
    show ("-" ++ toString (n + 1)).toList = _
    rw [String.toList_append, Binary64.toList_toString, hsign]
    rfl

theorem scans_int (n : Int) : Scans (toString n).toList [.int (toString n).toList] true := by
  rw [toList_toString_int]
  have hwhole := Token.isWhole_toDigits n.natAbs
  have hrun := Token.runsAsNumber_append hwhole (decide (n < 0)) [] rfl
  rw [List.append_nil] at hrun
  exact Scans.number hrun (Token.ofNumberText?_whole hwhole _)

theorem scans_float {x : Binary64} (hfinite : x.isFinite = true) :
    Scans (x.write floatLayout).toList [.float (x.write floatLayout).toList] x.isReadable := by
  obtain ⟨exponent?, hwritten, hreadable⟩ := Binary64.written_write hfinite
  refine Scans.number (Binary64.runsAsNumber_of_written hwritten) ?_
  rw [← hreadable]
  exact Binary64.ofNumberText?_of_written hwritten

mutual

theorem scans_text : ∀ l : Literal, l.isWellFormed = true →
    Scans l.text.toList l.tokens l.isReadable
  | null, _ => Scans.name (by decide)
  | bool true, _ => Scans.name (by decide)
  | bool false, _ => Scans.name (by decide)
  | int n, _ => scans_int n
  | float _, h => scans_float h
  | string s, _ => scans_quote s
  | enumValue _, h => Scans.name h
  | list items, h => by
    have hitems : Scans ([',', ' '].intercalate (items.map fun item => item.text.toList))
        (items.flatMap tokens) (items.all isReadable) :=
      Scans.intercalate (by decide) (by decide) (scans_items items h)
    have hclose := Scans.punctuator .bracketClose Scans.nil
    have hscans := Scans.punctuator .bracketOpen
      (hitems.append hclose (Token.ends_cons (by decide)))
    rw [Bool.and_true] at hscans
    rw [text, texts_eq, tokens, tokensOfAll_eq, isReadable, areReadable_eq, String.toList_append,
      String.toList_append, String.toList_intercalate, List.map_map]
    exact hscans

theorem scans_items : ∀ items : List Literal, areWellFormed items = true →
    ∀ item ∈ items, Scans item.text.toList item.tokens item.isReadable
  | [], _ => by simp
  | item :: items, h => by
    rw [areWellFormed, Bool.and_eq_true] at h
    exact List.forall_mem_cons.mpr ⟨scans_text item h.1, scans_items items h.2⟩

end

end Literal

namespace Arguments

open Located

def isWellFormed (args : Arguments) : Bool :=
  args.all fun (name, value) => isName name && value.isWellFormed

def isReadable (args : Arguments) : Bool :=
  args.all fun (_, value) => value.isReadable

def tokensOfOne (arg : String × Literal) : List Token :=
  .name arg.1.toList :: .punctuator .colon :: arg.2.tokens

def tokens (args : Arguments) : List Token :=
  if args.isEmpty then []
  else .punctuator .parenOpen :: args.flatMap tokensOfOne ++ [.punctuator .parenClose]

theorem scans_text (args : Arguments) (h : args.isWellFormed = true) :
    Scans args.text.toList args.tokens args.isReadable ∧ Token.Ends args.text.toList := by
  unfold text tokens isReadable
  cases hempty : args.isEmpty with
  | true =>
    obtain rfl := List.isEmpty_iff.mp hempty
    exact ⟨Scans.nil, Token.ends_nil⟩
  | false =>
    have harg : ∀ arg ∈ args, Scans (arg.1 ++ ": " ++ arg.2.text).toList
        (tokensOfOne arg) arg.2.isReadable := by
      intro arg harg
      have hwf := List.all_eq_true.mp h arg harg
      rw [Bool.and_eq_true] at hwf
      have hvalue := Scans.punctuator .colon
        (Scans.skip (c := ' ') (by decide) (arg.2.scans_text hwf.2))
      have hscans := (Scans.name hwf.1).append hvalue (Token.ends_cons (by decide))
      rw [String.toList_append, String.toList_append, List.append_assoc]
      exact hscans
    have hsep : [',', ' '].all isSeparator = true := by decide
    have hargs := Scans.intercalate hsep (by decide) harg
    have hscans := Scans.punctuator .parenOpen
      (hargs.append (Scans.punctuator .parenClose Scans.nil) (Token.ends_cons (by decide)))
    rw [Bool.and_true] at hscans
    rw [if_neg Bool.false_ne_true, if_neg Bool.false_ne_true, String.toList_append,
      String.toList_append, String.toList_intercalate, List.map_map]
    exact ⟨hscans, Token.ends_cons (by decide)⟩

end Arguments

namespace FieldTree

open Located

mutual

/-- Whether every field, with its arguments, passes a test. -/
def allFields (ok : String → Arguments → Bool) : FieldTree → Bool
  | node name args children => ok name args && allFieldsOf ok children

def allFieldsOf (ok : String → Arguments → Bool) : List FieldTree → Bool
  | [] => true
  | tree :: trees => allFields ok tree && allFieldsOf ok trees

end

def isWellFormed (tree : FieldTree) : Bool :=
  tree.allFields fun name args => isName name && args.isWellFormed

def areWellFormed (trees : List FieldTree) : Bool :=
  allFieldsOf (fun name args => isName name && args.isWellFormed) trees

def areReadable (trees : List FieldTree) : Bool :=
  allFieldsOf (fun _ args => args.isReadable) trees

theorem isWellFormed_node {name : String} {args : Arguments} {children : List FieldTree} :
    (node name args children).isWellFormed = true ↔
      isName name = true ∧ args.isWellFormed = true ∧ areWellFormed children = true := by
  simp only [isWellFormed, areWellFormed, allFields, Bool.and_eq_true, and_assoc]

theorem areWellFormed_cons {tree : FieldTree} {trees : List FieldTree} :
    areWellFormed (tree :: trees) = true ↔
      tree.isWellFormed = true ∧ areWellFormed trees = true := Bool.and_eq_true_iff

theorem areReadable_cons (name : String) (args : Arguments) (children trees : List FieldTree) :
    areReadable (node name args children :: trees) =
      ((args.isReadable && areReadable children) && areReadable trees) := rfl

mutual

def tokens : FieldTree → List Token
  | node name args children =>
    .name name.toList :: args.tokens ++
      if children.isEmpty then []
      else .punctuator .braceOpen :: tokensOfAll children ++ [.punctuator .braceClose]

def tokensOfAll : List FieldTree → List Token
  | [] => []
  | tree :: trees => tokens tree ++ tokensOfAll trees

end

/-- Lines as they follow other lines. -/
def inLines (ls : List String) : List Char := ls.flatMap fun l => '\n' :: l.toList

theorem ends_inLines (ls : List String) : Token.Ends (inLines ls) := by
  cases ls with
  | nil => exact Token.ends_nil
  | cons l ls => exact Token.ends_cons (by decide)

theorem scans_indented (depth : Nat) {cs : List Char} {ts : List Token} {x : Bool}
    (h : Scans cs ts x) : Scans ('\n' :: ((indentation depth).toList ++ cs)) ts x := by
  refine Scans.skip (by decide) (Scans.skipAll ?_ h)
  rw [indentation, String.toList_ofList, List.all_eq_true]
  intro c hc
  rw [(List.mem_replicate.mp hc).2]
  decide

theorem inLines_append (ls ms : List String) : inLines (ls ++ ms) = inLines ls ++ inLines ms :=
  List.flatMap_append

/-- The first line of a field starts with its name. -/
theorem inLines_lines (name : String) (args : Arguments) (children : List FieldTree) (depth : Nat) :
    ∃ rest, inLines (lines depth (node name args children)) =
      '\n' :: ((indentation depth).toList ++ name.toList ++ rest) := by
  cases children with
  | nil => exact ⟨args.text.toList, by simp [lines, inLines]⟩
  | cons child more =>
    refine ⟨args.text.toList ++ [' ', '\x7b'] ++ inLines (lines (depth + 1) child ++
      listLines (depth + 1) more ++ [indentation depth ++ "\x7d"]), ?_⟩
    simp [lines, inLines]

theorem scans_listLines : ∀ (trees : List FieldTree) (depth : Nat), areWellFormed trees = true →
    Scans (inLines (listLines depth trees)) (tokensOfAll trees) (areReadable trees)
  | [], _, _ => Scans.nil
  | node name args [] :: trees, depth, h => by
    obtain ⟨htree, htrees⟩ := areWellFormed_cons.mp h
    obtain ⟨hname, hargs, -⟩ := isWellFormed_node.mp htree
    obtain ⟨hscans, hends⟩ := args.scans_text hargs
    have hfield := scans_indented depth ((Scans.name hname).append hscans hends)
    have hall := hfield.append (scans_listLines trees depth htrees) (ends_inLines _)
    rw [Bool.true_and] at hall
    rw [areReadable_cons, listLines, inLines_append]
    simpa [inLines, lines, tokens, tokensOfAll, areReadable, allFieldsOf] using hall
  | node name args (child :: more) :: trees, depth, h => by
    obtain ⟨htree, htrees⟩ := areWellFormed_cons.mp h
    obtain ⟨hname, hargs, hchildren⟩ := isWellFormed_node.mp htree
    obtain ⟨hscans, hends⟩ := args.scans_text hargs
    have hclose := scans_indented depth (Scans.punctuator .braceClose Scans.nil)
    have hinner := (scans_listLines (child :: more) (depth + 1) hchildren).append hclose
      (Token.ends_cons (by decide))
    have hblock := Scans.skip (c := ' ') (by decide) (Scans.punctuator .braceOpen hinner)
    have hfield := scans_indented depth ((Scans.name hname).append
      (hscans.append hblock (Token.ends_cons (by decide)))
      (Token.ends_append hends (Token.ends_cons (by decide))))
    have hall := hfield.append (scans_listLines trees depth htrees) (ends_inLines _)
    rw [Bool.true_and, Bool.and_true] at hall
    rw [areReadable_cons, listLines, inLines_append]
    simpa [inLines, lines, listLines, tokens, tokensOfAll, Punctuator.text] using hall

def operationTokens (op : Operation) (trees : List FieldTree) : List Token :=
  .name op.keyword.toList :: .punctuator .braceOpen :: tokensOfAll trees ++
    [.punctuator .braceClose]

theorem toList_operationText (op : Operation) (trees : List FieldTree) :
    (operationText op trees).toList =
      op.keyword.toList ++ ' ' :: '\x7b' :: inLines (listLines 1 trees ++ ["\x7d"]) := by
  rw [operationText, String.toList_intercalate, List.cons_append, List.map_cons, intercalate_cons,
    List.flatMap_map, String.toList_append, List.append_assoc]
  rfl

theorem scans_operationText (op : Operation) {trees : List FieldTree}
    (h : areWellFormed trees = true) :
    Scans (operationText op trees).toList (operationTokens op trees) (areReadable trees) := by
  have hclose := Scans.skip (c := '\n') (by decide) (Scans.punctuator .braceClose Scans.nil)
  have hinner := (scans_listLines trees 1 h).append hclose (Token.ends_cons (by decide))
  have hblock := Scans.skip (c := ' ') (by decide) (Scans.punctuator .braceOpen hinner)
  have hkeyword : Token.isNameText op.keyword.toList = true := by
    cases op <;> decide
  have hscans := (Scans.name hkeyword).append hblock (Token.ends_cons (by decide))
  rw [Bool.true_and, Bool.and_true] at hscans
  rw [toList_operationText, inLines, List.flatMap_append]
  exact hscans

end FieldTree

end QueryPicker
