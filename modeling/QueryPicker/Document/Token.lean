/-!
# Tokens of query documents

A text is read as tokens with blanks, commas and comments between them. Each token has a position in
lines and columns. Opening brackets use up a budget of levels that closing brackets give back; once
it is spent an opening bracket is no token any more. Reading stops at the end of the text or at the
first text that is no token.
-/

namespace QueryPicker

inductive Punctuator where
  | bang
  | dollar
  | parenOpen
  | parenClose
  | colon
  | equals
  | atSign
  | bracketOpen
  | bracketClose
  | braceOpen
  | braceClose
  | pipe
  | ampersand
  | ellipsis
  deriving DecidableEq, Inhabited

def Punctuator.text : Punctuator → List Char
  | bang => ['!']
  | dollar => ['$']
  | parenOpen => ['(']
  | parenClose => [')']
  | colon => [':']
  | equals => ['=']
  | atSign => ['@']
  | bracketOpen => ['[']
  | bracketClose => [']']
  | braceOpen => ['\x7b']
  | braceClose => ['\x7d']
  | pipe => ['|']
  | ampersand => ['&']
  | ellipsis => ['.', '.', '.']

/-- Strings are held as written between their quotes. -/
inductive Token where
  | punctuator (p : Punctuator)
  | name (text : List Char)
  | int (text : List Char)
  | float (text : List Char)
  | string (raw : List Char)
  | block (raw : List Char)
  deriving DecidableEq, Inhabited

structure Position where
  line : Nat
  column : Nat
  deriving DecidableEq, Inhabited

namespace Position

def start : Position := ⟨1, 1⟩

/-- Past the text of a token: a line feed starts a new line. -/
def advance (pos : Position) : List Char → Position
  | [] => pos
  | c :: cs =>
    advance (if c = '\n' then ⟨pos.line + 1, 1⟩ else ⟨pos.line, pos.column + 1⟩) cs

end Position

namespace Token

def threeQuotes : List Char := ['"', '"', '"']

def text : Token → List Char
  | punctuator p => p.text
  | name text => text
  | int text => text
  | float text => text
  | string raw => '"' :: raw ++ ['"']
  | block raw => threeQuotes ++ raw ++ threeQuotes

def isNameStart (c : Char) : Bool := c.isAlpha || c == '_'

def isNameChar (c : Char) : Bool := c.isAlphanum || c == '_'

def punctuator? (c : Char) : Option Punctuator :=
  match c with
  | '!' => some .bang
  | '$' => some .dollar
  | '(' => some .parenOpen
  | ')' => some .parenClose
  | ':' => some .colon
  | '=' => some .equals
  | '@' => some .atSign
  | '[' => some .bracketOpen
  | ']' => some .bracketClose
  | '\x7b' => some .braceOpen
  | '\x7d' => some .braceClose
  | '|' => some .pipe
  | '&' => some .ampersand
  | _ => none

/-- What ends a number: a blank, a comma, a comment or a punctuator of one character. -/
def endsNumber (c : Char) : Bool :=
  c == ' ' || c == '\n' || c == '\r' || c == '\t' || c == ',' || c == '#' || (punctuator? c).isSome

def areDigits (cs : List Char) : Bool := !cs.isEmpty && cs.all Char.isDigit

/-- A zero or digits that do not start with one, with a minus sign or without. -/
def isIntText (cs : List Char) : Bool :=
  let digits := match cs with
    | '-' :: digits => digits
    | digits => digits
  digits == ['0'] || (areDigits digits && digits.head? != some '0')

/-- A sign or a digit from 1 to 8, then any digits. -/
def isExponentText : List Char → Bool
  | [] => false
  | c :: cs => (c == '+' || c == '-' || ('1' ≤ c && c ≤ '8')) && cs.all Char.isDigit

/-- The parts before and after the last character with the property. -/
def splitLast? (p : Char → Bool) (cs : List Char) : Option (List Char × List Char) :=
  match cs.reverse.span (!p ·) with
  | (_, []) => none
  | (after, _ :: before) => some (before.reverse, after.reverse)

def isExponentMark (c : Char) : Bool := c == 'e' || c == 'E'

/-- The token that the text of a number is, if it is one. The last point and the last exponent mark
divide the text. -/
def ofNumberText? (cs : List Char) : Option Token :=
  match splitLast? (· == '.') cs with
  | none =>
    match splitLast? isExponentMark cs with
    | none => if isIntText cs then some (.int cs) else none
    | some (whole, exponent) =>
      if isIntText whole && isExponentText exponent then some (.float cs) else none
  | some (whole, after) =>
    if !isIntText whole then none
    else
      match splitLast? isExponentMark after with
      | none => if areDigits after then some (.float cs) else none
      | some (fraction, exponent) =>
        if areDigits fraction && isExponentText exponent then some (.float cs) else none

/-- The text up to the first quote that is not escaped, and what follows the quote. A string ends on
the line on which it starts. -/
def stringEnd? (escaped : Bool) : List Char → Option (List Char × List Char)
  | [] => none
  | c :: cs =>
    if c = '"' ∧ !escaped then some ([], cs)
    else if c = '\n' then none
    else (stringEnd? (!escaped && c == '\\') cs).map fun (raw, rest) => (c :: raw, rest)

/-- The text up to the first three quotes that do not follow a backslash, and what follows them. -/
def blockEnd? (afterBackslash : Bool) : List Char → Option (List Char × List Char)
  | '"' :: '"' :: '"' :: cs =>
    if afterBackslash then
      (blockEnd? false cs).map fun (raw, rest) => ('"' :: '"' :: '"' :: raw, rest)
    else some ([], cs)
  | c :: cs => (blockEnd? (c == '\\') cs).map fun (raw, rest) => (c :: raw, rest)
  | [] => none

/-- The token at the front of the text, with the rest of the text. -/
def take? : List Char → Option (Token × List Char)
  | [] => none
  | '.' :: '.' :: '.' :: cs => some (.punctuator .ellipsis, cs)
  | '"' :: '"' :: '"' :: cs => (blockEnd? false cs).map fun (raw, rest) => (.block raw, rest)
  | '"' :: cs => (stringEnd? false cs).map fun (raw, rest) => (.string raw, rest)
  | c :: cs =>
    if isNameStart c then
      some (.name (c :: cs.takeWhile isNameChar), cs.dropWhile isNameChar)
    else if c.isDigit || c == '-' then
      (ofNumberText? (c :: cs.takeWhile (!endsNumber ·))).map fun token =>
        (token, cs.dropWhile (!endsNumber ·))
    else (punctuator? c).map fun p => (.punctuator p, cs)

theorem text_ofNumberText? {cs : List Char} {token : Token} (h : ofNumberText? cs = some token) :
    token.text = cs := by
  unfold ofNumberText? at h
  repeat' split at h
  all_goals first
    | (cases h; rfl)
    | cases h

theorem stringEnd?_eq {escaped : Bool} {cs raw rest : List Char}
    (h : stringEnd? escaped cs = some (raw, rest)) : cs = raw ++ '"' :: rest := by
  induction cs generalizing escaped raw with
  | nil => simp [stringEnd?] at h
  | cons c cs ih =>
    unfold stringEnd? at h
    split at h
    · rename_i hc
      obtain ⟨rfl, rfl⟩ := by simpa using h
      simp [hc.1]
    · split at h
      · simp at h
      · obtain ⟨⟨raw', rest'⟩, h', heq⟩ := Option.map_eq_some_iff.mp h
        obtain ⟨rfl, rfl⟩ := by simpa using heq
        simp [ih h']

theorem blockEnd?_eq {after : Bool} {cs raw rest : List Char}
    (h : blockEnd? after cs = some (raw, rest)) : cs = raw ++ threeQuotes ++ rest := by
  fun_induction blockEnd? after cs generalizing raw with
  | case1 cs ih =>
    obtain ⟨⟨raw', rest'⟩, h', heq⟩ := Option.map_eq_some_iff.mp h
    obtain ⟨rfl, rfl⟩ := by simpa using heq
    simp [ih h']
  | case2 after cs hafter =>
    obtain ⟨rfl, rfl⟩ := by simpa using h
    simp [threeQuotes]
  | case3 after c cs _ ih =>
    obtain ⟨⟨raw', rest'⟩, h', heq⟩ := Option.map_eq_some_iff.mp h
    obtain ⟨rfl, rfl⟩ := by simpa using heq
    simp [ih h']
  | case4 => simp at h

theorem text_punctuator? {c : Char} {p : Punctuator} (h : punctuator? c = some p) :
    p.text = [c] := by
  unfold punctuator? at h
  split at h <;> cases h <;> rfl

/-- The text is the text of the token and the rest: nothing is lost. -/
theorem take?_eq {cs rest : List Char} {token : Token} (h : take? cs = some (token, rest)) :
    cs = token.text ++ rest := by
  unfold take? at h
  split at h
  · simp at h
  · obtain ⟨rfl, rfl⟩ := by simpa using h
    rfl
  · obtain ⟨⟨raw, rest'⟩, h', heq⟩ := Option.map_eq_some_iff.mp h
    obtain ⟨rfl, rfl⟩ := by simpa using heq
    simp [blockEnd?_eq h', Token.text, threeQuotes]
  · obtain ⟨⟨raw, rest'⟩, h', heq⟩ := Option.map_eq_some_iff.mp h
    obtain ⟨rfl, rfl⟩ := by simpa using heq
    simp [stringEnd?_eq h', Token.text]
  · split at h
    · obtain ⟨rfl, rfl⟩ := by simpa using h
      simp [Token.text]
    · split at h
      · obtain ⟨t, h', heq⟩ := Option.map_eq_some_iff.mp h
        obtain ⟨rfl, rfl⟩ := by simpa using heq
        simp [text_ofNumberText? h']
      · obtain ⟨p, h', heq⟩ := Option.map_eq_some_iff.mp h
        obtain ⟨rfl, rfl⟩ := by simpa using heq
        simp [Token.text, text_punctuator? h']

theorem text_ne_nil_of_take? {cs rest : List Char} {token : Token}
    (h : take? cs = some (token, rest)) : token.text ≠ [] := by
  unfold take? at h
  split at h
  · simp at h
  · obtain ⟨rfl, rfl⟩ := by simpa using h
    simp [Token.text, Punctuator.text]
  · obtain ⟨⟨raw, rest'⟩, h', heq⟩ := Option.map_eq_some_iff.mp h
    obtain ⟨rfl, rfl⟩ := by simpa using heq
    simp [Token.text, threeQuotes]
  · obtain ⟨⟨raw, rest'⟩, h', heq⟩ := Option.map_eq_some_iff.mp h
    obtain ⟨rfl, rfl⟩ := by simpa using heq
    simp [Token.text]
  · split at h
    · obtain ⟨rfl, rfl⟩ := by simpa using h
      simp [Token.text]
    · split at h
      · obtain ⟨t, h', heq⟩ := Option.map_eq_some_iff.mp h
        obtain ⟨rfl, rfl⟩ := by simpa using heq
        simp [text_ofNumberText? h']
      · obtain ⟨p, h', heq⟩ := Option.map_eq_some_iff.mp h
        obtain ⟨rfl, rfl⟩ := by simpa using heq
        simp [Token.text, text_punctuator? h']

theorem length_rest_lt {cs rest : List Char} {token : Token} (h : take? cs = some (token, rest)) :
    rest.length < cs.length := by
  rw [take?_eq h, List.length_append]
  have := List.length_pos_iff.mpr (text_ne_nil_of_take? h)
  omega

/-- How many brackets may be open at once. -/
def bracketBudget : Nat := 50

/-- The levels left after the token; an opening bracket needs one. -/
def levelsAfter? (levels : Nat) : Token → Option Nat
  | punctuator .parenOpen => if levels = 0 then none else some (levels - 1)
  | punctuator .bracketOpen => if levels = 0 then none else some (levels - 1)
  | punctuator .braceOpen => if levels = 0 then none else some (levels - 1)
  | punctuator .parenClose => some (levels + 1)
  | punctuator .bracketClose => some (levels + 1)
  | punctuator .braceClose => some (levels + 1)
  | _ => some levels

end Token

/-- What stands at a position: a token, the end of the text, or text that is no token. -/
inductive Lexeme where
  | token (t : Token)
  | finish
  | junk
  deriving DecidableEq, Inhabited

structure Located where
  position : Position
  lexeme : Lexeme
  deriving DecidableEq, Inhabited

namespace Located

/-- The position after a character between tokens, if it is one: a byte order mark and a carriage
return take up no room, and a tab takes up eight columns. -/
def afterSeparator? (pos : Position) (c : Char) : Option Position :=
  if c.toNat = 0xFEFF ∨ c = '\r' then some pos
  else if c = '\t' then some ⟨pos.line, pos.column + 8⟩
  else if c = ' ' ∨ c = ',' then some ⟨pos.line, pos.column + 1⟩
  else if c = '\n' then some ⟨pos.line + 1, 1⟩
  else none

def endsLine (c : Char) : Bool := c == '\r' || c == '\n'

theorem length_afterComment {cs rest : List Char} {c : Char}
    (h : cs.dropWhile (!endsLine ·) = c :: rest) : rest.length < cs.length := by
  have hle := (List.dropWhile_suffix (!endsLine ·) : cs.dropWhile (!endsLine ·) <:+ cs).length_le
  rw [h, List.length_cons] at hle
  omega

/-- The tokens of a text from a position on. The last entry is the end or no token. A comment goes
on to the end of its line, which it includes; one that is not ended takes up no room. -/
def scan (levels : Nat) (pos : Position) (cs : List Char) : List Located :=
  match cs with
  | [] => [⟨pos, .finish⟩]
  | c :: cs =>
    match afterSeparator? pos c with
    | some pos => scan levels pos cs
    | none =>
      if c = '#' then
        match h : cs.dropWhile (!endsLine ·) with
        | [] => [⟨pos, .finish⟩]
        | _ :: rest =>
          have : rest.length < cs.length := length_afterComment h
          scan levels ⟨pos.line + 1, 1⟩ rest
      else
        match h : Token.take? (c :: cs) with
        | none => [⟨pos, .junk⟩]
        | some (token, rest) =>
          have : rest.length < cs.length + 1 := Token.length_rest_lt h
          match token.levelsAfter? levels with
          | none => [⟨pos, .junk⟩]
          | some levels => ⟨pos, .token token⟩ :: scan levels (pos.advance token.text) rest
termination_by cs.length

def ofText (text : String) : List Located :=
  scan Token.bracketBudget .start text.toList

end Located

end QueryPicker
