import Mathlib
import QueryPicker.Json.Writer
import QueryPicker.Proofs.GrammarRefusal
import QueryPicker.Proofs.JsonNumbers

/-!
# Values in JSON text

The text of a value is taken off the front of a text, whatever may follow a value there: strings by
their escapes, lists by their commas and closing brackets. Only floating point numbers need not be
read as what was written.
-/

namespace QueryPicker

namespace Json.Reader

variable {rest : Rest} {skim : Bool} {n : JsonNumber} {cs r : List Char}

theorem hexDigit?_hexDigit : ∀ n < 16, hexDigit? (hexDigit n) = some n := by decide

theorem stringTail_plain {c : Char} (hquote : c ≠ '"') (hslash : c ≠ '\\')
    (hcontrol : ¬ c.toNat < 32) (acc : List Char) :
    stringTail skim acc (c :: rest) = stringTail skim (c :: acc) rest := by
  rw [stringTail.eq_def]
  split <;> simp_all

theorem stringTail_simple {c d : Char} (h : simpleEscape? c = some d) (acc : List Char) :
    stringTail skim acc ('\\' :: c :: rest) = stringTail skim (d :: acc) rest := by
  have hu : c ≠ 'u' := by
    rintro rfl
    cases h
  rw [stringTail.eq_def]
  grind

/-- A control character is read back from its four digits. -/
theorem stringTail_control (skim : Bool) {n : Nat} (h : n < 32) (acc : List Char) (rest : Rest) :
    stringTail skim acc
        ('\\' :: 'u' :: '0' :: '0' :: hexDigit (n / 16) :: hexDigit (n % 16) :: rest) =
      stringTail skim (Char.ofNat n :: acc) rest := by
  have hfour : hexFour ('0' :: '0' :: hexDigit (n / 16) :: hexDigit (n % 16) :: rest) = .ok n := by
    simp only [hexFour, List.take_succ_cons, List.take_zero]
    rw [hexDigit?_hexDigit _ (by omega), hexDigit?_hexDigit _ (by omega)]
    have hzero : hexDigit? '0' = some 0 := rfl
    simp only [hzero]
    congr 1
    omega
  have hescape : unicodeEscape skim
      ('0' :: '0' :: hexDigit (n / 16) :: hexDigit (n % 16) :: rest) = .ok (Char.ofNat n, 4) := by
    have htrailing : isTrailingSurrogate n = false := by
      simp only [isTrailingSurrogate, Bool.and_eq_false_iff, decide_eq_false_iff_not]
      omega
    have hleading : isLeadingSurrogate n = false := by
      simp only [isLeadingSurrogate, Bool.and_eq_false_iff, decide_eq_false_iff_not]
      omega
    rw [unicodeEscape, hfour]
    cases skim <;> simp [htrailing, hleading, bind, Except.bind]
  rw [stringTail.eq_def]
  simp [hescape]

theorem stringTail_escapeChar (c : Char) (acc : List Char) :
    stringTail skim acc (escapeChar c ++ rest) = stringTail skim (c :: acc) rest := by
  unfold escapeChar
  split_ifs with hquote hslash hback hform hline hreturn htab hcontrol
  · subst hquote
    exact stringTail_simple rfl acc
  · subst hslash
    exact stringTail_simple rfl acc
  · obtain rfl : c = Char.ofNat 8 := by rw [← hback, Char.ofNat_toNat]
    exact stringTail_simple rfl acc
  · obtain rfl : c = Char.ofNat 12 := by rw [← hform, Char.ofNat_toNat]
    exact stringTail_simple rfl acc
  · subst hline
    exact stringTail_simple rfl acc
  · subst hreturn
    exact stringTail_simple rfl acc
  · subst htab
    exact stringTail_simple rfl acc
  · have h := stringTail_control skim hcontrol acc rest
    rw [Char.ofNat_toNat] at h
    exact h
  · exact stringTail_plain hquote hslash hcontrol acc

theorem stringTail_flatMap (cs acc : List Char) :
    stringTail skim acc (cs.flatMap escapeChar ++ '"' :: rest) =
      .ok (String.ofList (acc.reverse ++ cs), rest) := by
  induction cs generalizing acc with
  | nil =>
    rw [stringTail.eq_def]
    simp
  | cons c cs ih =>
    rw [List.flatMap_cons, List.append_assoc, stringTail_escapeChar, ih]
    simp

/-- Between quotes a string is read back. -/
theorem stringTail_quote (skim : Bool) (s : String) (rest : Rest) :
    ∃ tail, (quote s).toList = '"' :: tail ∧ stringTail skim [] (tail ++ rest) = .ok (s, rest) := by
  refine ⟨s.toList.flatMap escapeChar ++ ['"'], by simp [quote], ?_⟩
  rw [List.append_assoc, List.singleton_append, stringTail_flatMap, List.reverse_nil,
    List.nil_append, String.ofList_toList]

theorem wordTail_eq {value v : Json} {word : List Char} (h : wordTail value word cs = .ok (v, r)) :
    v = value := by
  induction word generalizing cs with
  | nil =>
    cases h
    rfl
  | cons w word ih =>
    cases cs with
    | nil => cases h
    | cons c cs =>
      rw [wordTail] at h
      split_ifs at h
      exact ih h

/-- How a value is read, by its first character. -/
inductive ReadsValue (skim : Bool) (cs : List Char) (r : Rest) : Nat → Json → Prop where
  | null {depth} : ReadsValue skim cs r depth .null
  | bool {depth} (b : Bool) : ReadsValue skim cs r depth (.bool b)
  | string {depth} (s : String) : ReadsValue skim cs r depth (.string s)
  | negative {depth more v} : skipSpace cs = '-' :: more →
      checkedNumber skim (number true more) = .ok (v, r) → ReadsValue skim cs r depth v
  | digit {depth c more v} : skipSpace cs = c :: more → c.isDigit = true →
      checkedNumber skim (number false (c :: more)) = .ok (v, r) → ReadsValue skim cs r depth v
  | array {depth items more} :
      itemsTail (value skim depth) (more.length + 1) true more = .ok (items, r) →
        ReadsValue skim cs r (depth + 1) (.array items)
  | object {depth members more} :
      membersTail skim (value skim depth) (more.length + 1) true more = .ok (members, r) →
        ReadsValue skim cs r (depth + 1) (.object members)

theorem readsValue {depth : Nat} {v : Json} (h : value skim depth cs = .ok (v, r)) :
    ReadsValue skim cs r depth v := by
  rw [value] at h
  split at h
  · cases h
  · obtain rfl := wordTail_eq h
    exact .null
  · obtain rfl := wordTail_eq h
    exact .bool true
  · obtain rfl := wordTail_eq h
    exact .bool false
  · obtain ⟨⟨s, more⟩, -, h⟩ := Document.bind_eq_ok.mp h
    cases h
    exact .string s
  · rename_i more hskip
    exact .negative hskip h
  · cases depth with
    | zero => cases h
    | succ depth =>
      obtain ⟨⟨items, more⟩, hitems, h⟩ := Document.bind_eq_ok.mp h
      cases h
      exact .array hitems
  · rename_i c more _ _ _ _ _ _ hskip
    split_ifs at h with hdigit hbrace
    · exact .digit hskip hdigit h
    · cases depth with
      | zero => cases h
      | succ depth =>
        obtain ⟨⟨members, more⟩, hmembers, h⟩ := Document.bind_eq_ok.mp h
        cases h
        exact .object hmembers

theorem value_of_minus {depth : Nat} {more : List Char} (h : skipSpace cs = '-' :: more) :
    value skim depth cs = checkedNumber skim (number true more) := by
  rw [value, h]
  rfl

theorem value_of_digit {depth : Nat} {c : Char} {more : List Char} (h : skipSpace cs = c :: more)
    (hdigit : c.isDigit = true) :
    value skim depth cs = checkedNumber skim (number false (c :: more)) := by
  have hne : ∀ d, d.isDigit = false → c ≠ d := by
    rintro d hd rfl
    rw [hdigit] at hd
    cases hd
  rw [value, h]
  simp [hdigit, hne 'n' rfl, hne 't' rfl, hne 'f' rfl, hne '"' rfl, hne '-' rfl, hne '[' rfl]

theorem value_of_quote (depth : Nat) (more : List Char) : value skim depth ('"' :: more) = do
    let (s, cs) ← stringTail skim [] more
    return (.string s, cs) := by
  rw [value]
  rfl

theorem value_of_bracket (depth : Nat) (more : List Char) :
    value skim (depth + 1) ('[' :: more) = do
      let (items, cs) ← itemsTail (value skim depth) (more.length + 1) true more
      return (.array items, cs) := by
  rw [value]
  rfl

theorem value_of_brace (depth : Nat) (more : List Char) :
    value skim (depth + 1) ('\x7b' :: more) = do
      let (members, cs) ← membersTail skim (value skim depth) (more.length + 1) true more
      return (.object members, cs) := by
  rw [value]
  rfl

theorem skipSpace_append {c : Char} {more : List Char} (h : skipSpace cs = c :: more)
    (rest : List Char) : skipSpace (cs ++ rest) = c :: (more ++ rest) := by
  have hne : (cs.dropWhile isSpace).isEmpty = false := by
    rw [show cs.dropWhile isSpace = c :: more from h]
    rfl
  rw [skipSpace, List.dropWhile_append, hne, if_neg Bool.false_ne_true,
    show cs.dropWhile isSpace = c :: more from h, List.cons_append]

theorem checkedNumber_spec {result : Except JsonError (JsonNumber × Rest)} {v : Json}
    (h : checkedNumber skim result = .ok (v, r)) : ∃ n, result = .ok (n, r) ∧ v = .number n ∧
      (skim = false → ∀ skim' r', checkedNumber skim' (.ok (n, r')) = .ok (v, r')) := by
  cases result with
  | error e => cases h
  | ok made =>
    obtain ⟨n, r'⟩ := made
    cases n with
    | integer n =>
      cases h
      exact ⟨_, rfl, rfl, fun _ _ _ => rfl⟩
    | float x =>
      rw [checkedNumber] at h
      split_ifs at h with hinfinite
      cases h
      refine ⟨_, rfl, rfl, ?_⟩
      rintro rfl skim' r'
      have hfinite : x.isInfinite = false := by simpa using hinfinite
      rw [checkedNumber, hfinite, if_neg (by simp)]

/-- A number that makes up a whole text is read alike at the front of a text. -/
theorem value_append_number {depth depth' : Nat} (hrest : Follows rest)
    (h : value false depth cs = .ok (.number n, r)) :
    value skim depth' (cs ++ rest) = .ok (.number n, r ++ rest) := by
  cases readsValue h with
  | negative hskip hread =>
    obtain ⟨n, hnumber, hn, hchecked⟩ := checkedNumber_spec hread
    rw [value_of_minus (skipSpace_append hskip rest), number_append hrest hnumber]
    exact hchecked rfl skim _
  | digit hskip hdigit hread =>
    obtain ⟨n, hnumber, hn, hchecked⟩ := checkedNumber_spec hread
    have hmore := number_append hrest hnumber
    rw [List.cons_append] at hmore
    rw [value_of_digit (skipSpace_append hskip rest) hdigit, hmore]
    exact hchecked rfl skim _

/-- A reader takes the text off the front as what it stands for, whatever may stand behind it, also
when spaces have been skipped. No list ends where the text starts. -/
structure Takes {α : Type} (item : List Char → Except JsonError (α × Rest)) (text : List Char)
    (a : α) : Prop where
  reads : ∀ rest, Follows rest → item (text ++ rest) = .ok (a, rest)
  starts : ∀ rest, Follows rest → ∃ c more, skipSpace (text ++ rest) = c :: more ∧
    c ≠ ']' ∧ c ≠ '\x7d' ∧ item (c :: more) = .ok (a, rest)

theorem value_skipSpace (depth : Nat) (cs : List Char) :
    value skim depth (skipSpace cs) = value skim depth cs := by
  have hskip : skipSpace (skipSpace cs) = skipSpace cs := List.dropWhile_idempotent ..
  rw [value, value, hskip]

theorem takes_value {depth : Nat} {text : List Char} {v : Json} {c : Char} {more : List Char}
    (hskip : skipSpace text = c :: more) (hbracket : c ≠ ']') (hbrace : c ≠ '\x7d')
    (h : ∀ rest, Follows rest → value skim depth (text ++ rest) = .ok (v, rest)) :
    Takes (value skim depth) text v := by
  refine ⟨h, fun rest hrest => ⟨c, more ++ rest, skipSpace_append hskip rest, hbracket, hbrace, ?_⟩⟩
  rw [← skipSpace_append hskip rest, value_skipSpace]
  exact h rest hrest

theorem length_le_intercalate (texts : List (List Char)) :
    texts.length ≤ ([','].intercalate texts).length + 1 := by
  cases texts with
  | nil => exact Nat.zero_le _
  | cons text texts =>
    have hcommas : texts.length ≤ (texts.flatMap ([','] ++ ·)).length := by
      induction texts with
      | nil => exact le_rfl
      | cons text texts ih =>
        rw [List.flatMap_cons, List.length_append, List.length_append, List.length_cons,
          List.length_singleton]
        omega
    rw [intercalate_cons, List.length_append, List.length_cons]
    omega

section Lists

variable {α : Type} {item : List Char → Except JsonError (α × Rest)} {write : α → List Char}

/-- A reader of lists, up to the closing bracket, for a reader of what is listed. -/
structure TakesLists (item : List Char → Except JsonError (α × Rest))
    (tail : Nat → Bool → List Char → Except JsonError (List α × Rest)) (close : Char) : Prop where
  follows : ∀ rest, Follows (close :: rest)
  closed : ∀ fuel isFirst rest, tail (fuel + 1) isFirst (close :: rest) = .ok ([], rest)
  first : ∀ {a text rest} fuel, Takes item text a → Follows rest →
    tail (fuel + 1) true (text ++ rest) = do
      let (values, cs) ← tail fuel false rest
      return (a :: values, cs)
  further : ∀ {a text rest} fuel, Takes item text a → Follows rest →
    tail (fuel + 1) false (',' :: text ++ rest) = do
      let (values, cs) ← tail fuel false rest
      return (a :: values, cs)

namespace TakesLists

variable {tail : Nat → Bool → List Char → Except JsonError (List α × Rest)} {close : Char}
  {as : List α} {fuel : Nat}

theorem follows_flatMap (h : TakesLists item tail close) (write : α → List Char) (as : List α)
    (rest : Rest) :
    Follows (as.flatMap (fun a => ',' :: write a) ++ close :: rest) := by
  cases as with
  | nil => exact h.follows rest
  | cons a as =>
    rintro c ⟨⟩
    exact .inl rfl

theorem tail_flatMap (h : TakesLists item tail close)
    (htakes : ∀ a ∈ as, Takes item (write a) a) (hfuel : as.length < fuel) (rest : Rest) :
    tail fuel false (as.flatMap (fun a => ',' :: write a) ++ close :: rest) = .ok (as, rest) := by
  induction as generalizing fuel with
  | nil =>
    obtain ⟨fuel, rfl⟩ := Nat.exists_eq_succ_of_ne_zero (Nat.ne_of_gt hfuel)
    exact h.closed fuel false rest
  | cons a as ih =>
    obtain ⟨fuel, rfl⟩ := Nat.exists_eq_succ_of_ne_zero (Nat.ne_zero_of_lt hfuel)
    have hmore := ih (fun b hb => htakes b (List.mem_cons_of_mem a hb))
      (Nat.lt_of_succ_lt_succ hfuel)
    have hstep := h.further fuel (htakes a List.mem_cons_self) (h.follows_flatMap write as rest)
    rw [hmore] at hstep
    rw [List.flatMap_cons, List.append_assoc]
    exact hstep

/-- A list is read back from its items with commas between them. The length of the text bounds their
number. -/
theorem tail_intercalate (h : TakesLists item tail close)
    (htakes : ∀ a ∈ as, Takes item (write a) a) (rest : Rest) :
    tail (([','].intercalate (as.map write) ++ close :: rest).length + 1) true
      ([','].intercalate (as.map write) ++ close :: rest) = .ok (as, rest) := by
  have hlength := length_le_intercalate (as.map write)
  rw [List.length_map] at hlength
  rw [List.length_append, List.length_cons]
  cases as with
  | nil => exact h.closed _ true rest
  | cons a as =>
    rw [List.length_cons] at hlength
    generalize hfuel : ([','].intercalate ((a :: as).map write)).length + (rest.length + 1) = fuel
    have hmore := h.tail_flatMap (fun b hb => htakes b (List.mem_cons_of_mem a hb))
      (show as.length < fuel by omega) rest
    have hstep := h.first fuel (htakes a List.mem_cons_self) (h.follows_flatMap write as rest)
    rw [hmore] at hstep
    rw [List.map_cons, intercalate_cons, List.flatMap_map, List.append_assoc]
    exact hstep

end TakesLists

theorem takesLists_items : TakesLists item (itemsTail item) ']' where
  follows rest := by
    rintro c ⟨⟩
    exact .inr (.inl rfl)
  closed fuel isFirst rest := rfl
  first := by
    intro a text rest fuel h hrest
    obtain ⟨c, more, hskip, hbracket, -, hread⟩ := h.starts rest hrest
    rw [itemsTail, hskip]
    simp [hread]
    rfl
  further := by
    intro a text rest fuel h hrest
    obtain ⟨c, more, hskip, hbracket, -, hread⟩ := h.starts rest hrest
    have hcomma : skipSpace (',' :: text ++ rest) = ',' :: (text ++ rest) := rfl
    rw [itemsTail, hcomma]
    simp [hskip, hbracket, hread]
    rfl

theorem takesLists_members :
    TakesLists (member skim item) (membersTail skim item) '\x7d' where
  follows rest := by
    rintro c ⟨⟩
    exact .inr (.inr rfl)
  closed fuel isFirst rest := rfl
  first := by
    intro a text rest fuel h hrest
    obtain ⟨c, more, hskip, -, hbrace, hread⟩ := h.starts rest hrest
    rw [membersTail, hskip]
    simp [hbrace, hread]
    rfl
  further := by
    intro a text rest fuel h hrest
    obtain ⟨c, more, hskip, -, hbrace, hread⟩ := h.starts rest hrest
    have hcomma : skipSpace (',' :: text ++ rest) = ',' :: (text ++ rest) := rfl
    rw [membersTail, hcomma]
    simp [hskip, hbrace, hread]
    rfl

/-- A name with a colon before its value is read as a member. -/
theorem takes_member {text : List Char} {a : α} (h : Takes item text a) (name : String) :
    Takes (member skim item) ((quote name).toList ++ ':' :: text) (name, a) := by
  have hread : ∀ rest, Follows rest →
      member skim item ((quote name).toList ++ ':' :: text ++ rest) = .ok ((name, a), rest) := by
    intro rest hrest
    obtain ⟨tail, hquote, hname⟩ := stringTail_quote skim name (':' :: (text ++ rest))
    have hcolon : skipSpace (':' :: (text ++ rest)) = ':' :: (text ++ rest) := rfl
    rw [hquote, List.append_assoc, List.cons_append, List.cons_append, member, hname]
    simp [bind, Except.bind, hcolon, h.reads rest hrest]
    rfl
  refine ⟨hread, fun rest hrest => ?_⟩
  obtain ⟨tail, hquote, -⟩ := stringTail_quote skim name []
  have hread := hread rest hrest
  rw [hquote] at hread ⊢
  exact ⟨'"', _, rfl, by decide, by decide, hread⟩

end Lists

end Json.Reader

/-- The number is read back from its text. -/
def Binary64.ReadsBack (x : Binary64) : Prop :=
  Json.Reader.value false 0 (JsonNumber.float x).write.toList = .ok (.number (.float x), [])

namespace Json

/-- Values that a text can hold: integers have 64 bits, names of members differ, and arrays and
objects nest no deeper than that. -/
inductive Fits : Nat → Json → Prop where
  | null {depth} : Fits depth .null
  | bool {depth} (b : Bool) : Fits depth (.bool b)
  | integer {depth} {n : Int} : -2 ^ 63 ≤ n → n < 2 ^ 64 → Fits depth (.number (.integer n))
  | float {depth} (x : Binary64) : Fits depth (.number (.float x))
  | string {depth} (s : String) : Fits depth (.string s)
  | array {depth items} : (∀ item ∈ items, Fits depth item) → Fits (depth + 1) (.array items)
  | object {depth members} : (members.map (·.1)).Nodup → (∀ m ∈ members, Fits depth m.2) →
      Fits (depth + 1) (.object members)

/-- The floating point number occurs in the value. -/
inductive HasFloat (x : Binary64) : Json → Prop where
  | here : HasFloat x (.number (.float x))
  | item {items item} : item ∈ items → HasFloat x item → HasFloat x (.array items)
  | member {members m} : m ∈ members → HasFloat x m.2 → HasFloat x (.object members)

section Parts

variable {depth : Nat} {x : Binary64} {items : List Json} {members : Members}

@[simp] theorem fits_array : Fits (depth + 1) (.array items) ↔ ∀ item ∈ items, Fits depth item :=
  ⟨fun | .array h => h, .array⟩

@[simp] theorem fits_object : Fits (depth + 1) (.object members) ↔
    (members.map (·.1)).Nodup ∧ ∀ m ∈ members, Fits depth m.2 :=
  ⟨fun | .object hnames h => ⟨hnames, h⟩, fun ⟨hnames, h⟩ => .object hnames h⟩

@[simp] theorem hasFloat_number {n : JsonNumber} : HasFloat x (.number n) ↔ n = .float x :=
  ⟨fun | .here => rfl, fun h => h ▸ .here⟩

@[simp] theorem not_hasFloat_string (s : String) : ¬ HasFloat x (.string s) := nofun

@[simp] theorem hasFloat_array : HasFloat x (.array items) ↔ ∃ item ∈ items, HasFloat x item :=
  ⟨fun | .item hitem h => ⟨_, hitem, h⟩, fun ⟨_, hitem, h⟩ => .item hitem h⟩

@[simp] theorem hasFloat_object : HasFloat x (.object members) ↔ ∃ m ∈ members, HasFloat x m.2 :=
  ⟨fun | .member hm h => ⟨_, hm, h⟩, fun ⟨_, hm, h⟩ => .member hm h⟩

end Parts

namespace Reader

variable {skim : Bool} {depth : Nat}

theorem compactItems_eq (items : List Json) : compactItems items = items.map compact := by
  induction items with
  | nil => rfl
  | cons item items ih => rw [compactItems, ih, List.map_cons]

theorem compactMembers_eq (members : Members) :
    compactMembers members = members.map fun m => quote m.1 ++ ":" ++ compact m.2 := by
  induction members with
  | nil => rfl
  | cons m members ih => rw [compactMembers, ih, List.map_cons]

theorem toList_compact_array (items : List Json) : (compact (.array items)).toList =
    '[' :: ([','].intercalate (items.map fun item => item.compact.toList) ++ [']']) := by
  rw [compact, compactItems_eq]
  simp [String.toList_intercalate, List.map_map, Function.comp_def]

theorem toList_compact_object (members : Members) : (compact (.object members)).toList =
    '\x7b' :: ([','].intercalate
      (members.map fun m => (quote m.1).toList ++ ':' :: m.2.compact.toList) ++ ['\x7d']) := by
  rw [compact, compactMembers_eq]
  simp [String.toList_intercalate, List.map_map, Function.comp_def]

theorem ne_of_isDigit {c : Char} (h : c.isDigit = true) (d : Char) (hd : d.isDigit = false) :
    c ≠ d := by
  rintro rfl
  rw [h] at hd
  cases hd

theorem takes_integer {n : Int} (hlow : -2 ^ 63 ≤ n) (hhigh : n < 2 ^ 64) :
    Takes (value skim depth) (compact (.number (.integer n))).toList (.number (.integer n)) := by
  have hmax : n.natAbs ≤ digitsMax := by
    have hmax : digitsMax = 2 ^ 64 - 1 := rfl
    omega
  have htext : (compact (.number (.integer n))).toList =
      Token.sign (decide (n < 0)) ++ Nat.toDigits 10 n.natAbs := Literal.toList_toString_int n
  have hnumber := number_toDigits hmax
  have hdigits := Token.areDigits_toDigits n.natAbs
  rw [htext]
  generalize Nat.toDigits 10 n.natAbs = ds at hnumber hdigits
  by_cases hneg : n < 0
  · have hskip : ∀ cs, skipSpace ('-' :: cs) = '-' :: cs := fun _ => rfl
    rw [decide_eq_true hneg]
    refine takes_value (hskip _) (by decide) (by decide) fun rest hrest => ?_
    have hread : number true ds = .ok (.integer n, []) := by
      have hn : -(n.natAbs : Int) = n := by omega
      have hne : ¬ (n.natAbs = 0 ∨ Nat.pow 2 63 < n.natAbs) := by
        rw [Nat.pow_eq]
        omega
      rw [hnumber, wholeNumber, if_neg (by simp), if_neg (by simp), if_neg hne, hn]
    show value skim depth ('-' :: (ds ++ rest)) = _
    rw [value_of_minus (hskip _), number_append hrest hread]
    rfl
  · rw [decide_eq_false hneg]
    cases ds with
    | nil => simp [Token.areDigits] at hdigits
    | cons d ds =>
      have hd : d.isDigit = true := by
        rw [Token.areDigits, List.all_cons, Bool.and_eq_true, Bool.and_eq_true] at hdigits
        exact hdigits.2.1
      have hne := ne_of_isDigit hd
      have hskip : ∀ cs, skipSpace (d :: cs) = d :: cs := fun cs =>
        List.dropWhile_cons_of_neg (by simp [isSpace, hne])
      refine takes_value (hskip ds) (hne _ rfl) (hne _ rfl) fun rest hrest => ?_
      have hread : number false (d :: ds) = .ok (.integer n, []) := by
        have hn : (n.natAbs : Int) = n := by omega
        rw [hnumber, wholeNumber, if_neg (by simp), if_pos (by simp), hn]
      have hmore := number_append hrest hread
      show value skim depth (d :: (ds ++ rest)) = _
      rw [value_of_digit (hskip _) hd, ← List.cons_append, hmore]
      rfl

theorem takes_float {x : Binary64} (h : x.ReadsBack) :
    Takes (value skim depth) (compact (.number (.float x))).toList (.number (.float x)) := by
  have hread : ∀ rest, Follows rest → value skim depth
      ((compact (.number (.float x))).toList ++ rest) = .ok (.number (.float x), rest) :=
    fun rest hrest => value_append_number hrest h
  cases readsValue h with
  | negative hskip _ => exact takes_value hskip (by decide) (by decide) hread
  | digit hskip hdigit _ =>
    exact takes_value hskip (ne_of_isDigit hdigit _ rfl) (ne_of_isDigit hdigit _ rfl) hread

/-- What fits is read back from its text. -/
theorem takes_compact {v : Json} (h : Fits depth v) (hfloats : ∀ x, v.HasFloat x → x.ReadsBack) :
    Takes (value skim depth) v.compact.toList v := by
  induction h with
  | null =>
    refine takes_value rfl (by decide) (by decide) fun rest _ => ?_
    rw [value]
    rfl
  | bool b =>
    cases b
    · refine takes_value rfl (by decide) (by decide) fun rest _ => ?_
      rw [value]
      rfl
    · refine takes_value rfl (by decide) (by decide) fun rest _ => ?_
      rw [value]
      rfl
  | integer hlow hhigh => exact takes_integer hlow hhigh
  | float x => exact takes_float (hfloats x .here)
  | string s =>
    obtain ⟨tail, hquote, -⟩ := stringTail_quote skim s []
    have hskip : skipSpace (compact (.string s)).toList = '"' :: tail := by
      rw [compact, hquote]
      rfl
    refine takes_value hskip (by decide) (by decide) fun rest _ => ?_
    obtain ⟨tail, hquote, hread⟩ := stringTail_quote skim s rest
    rw [compact, hquote, List.cons_append, value_of_quote, hread]
    rfl
  | @array depth items hitems ih =>
    have htakes : ∀ item ∈ items, Takes (value skim depth) item.compact.toList item :=
      fun item hitem => ih item hitem fun x hx => hfloats x (.item hitem hx)
    rw [toList_compact_array]
    refine takes_value (c := '[') rfl (by decide) (by decide) fun rest _ => ?_
    rw [List.cons_append, List.append_assoc, List.singleton_append, value_of_bracket,
      takesLists_items.tail_intercalate htakes]
    rfl
  | @object depth members hnames hmembers ih =>
    have htakes : ∀ m ∈ members, Takes (member skim (value skim depth))
        ((quote m.1).toList ++ ':' :: m.2.compact.toList) m := fun m hm =>
      takes_member (ih m hm fun x hx => hfloats x (.member hm hx)) m.1
    rw [toList_compact_object]
    refine takes_value (c := '\x7b') rfl (by decide) (by decide) fun rest _ => ?_
    rw [List.cons_append, List.append_assoc, List.singleton_append, value_of_brace,
      takesLists_members.tail_intercalate htakes]
    rfl

end Reader

end Json

end QueryPicker
