import QueryPicker.Document.Basic
import QueryPicker.Document.Token

/-!
# The grammar of query documents

A document is read from its tokens with one token of look-ahead. A text that is no document is
refused at the first token that cannot continue one. Every production takes a bound on the number of
steps; the bound at the outermost call is computed from the number of tokens, of which each level
of a production uses up at least one.
-/

namespace QueryPicker.Document

abbrev Tokens := List Located

/-- Refuses at the first of the tokens. -/
def refuse {α : Type} (ts : Tokens) : Except Position α :=
  .error ((ts.head?.map (·.position)).getD .start)

/-- Enough steps for any production over these tokens. -/
def steps (ts : Tokens) : Nat := 2 * ts.length + 4

def expect (p : Punctuator) : Tokens → Except Position Tokens
  | ⟨pos, .token (.punctuator q)⟩ :: ts => if q = p then .ok ts else .error pos
  | ts => refuse ts

def expectName : Tokens → Except Position (String × Tokens)
  | ⟨_, .token (.name n)⟩ :: ts => .ok (String.ofList n, ts)
  | ts => refuse ts

def startsWith (p : Punctuator) : Tokens → Bool
  | ⟨_, .token (.punctuator q)⟩ :: _ => q == p
  | _ => false

def name? : Tokens → Option (String × Tokens)
  | ⟨_, .token (.name n)⟩ :: ts => some (String.ofList n, ts)
  | _ => none

def digitsValue (cs : List Char) : Nat := cs.foldl (fun n c => n * 10 + (c.toNat - 48)) 0

/-- The value of an integer that fits 64 bits with a sign. -/
def intValue? (cs : List Char) : Option Int :=
  let n : Int := match cs with
    | '-' :: digits => -(digitsValue digits : Int)
    | digits => digitsValue digits
  if -(Nat.pow 2 63 : Int) ≤ n ∧ n < Nat.pow 2 63 then some n else none

/-- A number with an exponent needs a digit in it. -/
def hasExponentDigits (cs : List Char) : Bool :=
  match Token.splitLast? Token.isExponentMark cs with
  | none => true
  | some (_, exponent) => exponent.any Char.isDigit

def hexValue? (c : Char) : Option Nat :=
  if '0' ≤ c ∧ c ≤ '9' then some (c.toNat - 48)
  else if 'a' ≤ c ∧ c ≤ 'f' then some (c.toNat - 87)
  else if 'A' ≤ c ∧ c ≤ 'F' then some (c.toNat - 55)
  else none

/-- The character named by four characters: hexadecimal digits, the first of which may be a plus
sign instead. Surrogates are no characters. -/
def codePoint? (a b c d : Char) : Option Char := do
  let a ← if a = '+' then some 0 else hexValue? a
  let n := ((a * 16 + (← hexValue? b)) * 16 + (← hexValue? c)) * 16 + (← hexValue? d)
  if 0xD800 ≤ n ∧ n ≤ 0xDFFF then none else some (Char.ofNat n)

def simpleEscape? : Char → Option Char
  | '"' => some '"'
  | '\\' => some '\\'
  | '/' => some '/'
  | 'b' => some (Char.ofNat 8)
  | 'f' => some (Char.ofNat 12)
  | 'n' => some '\n'
  | 'r' => some '\r'
  | 't' => some '\t'
  | _ => none

/-- The characters that a string stands for. -/
def unescape? : List Char → Option (List Char)
  | [] => some []
  | '\\' :: 'u' :: a :: b :: c :: d :: cs => do
    let ch ← codePoint? a b c d
    return ch :: (← unescape? cs)
  | '\\' :: c :: cs => do
    let ch ← simpleEscape? c
    return ch :: (← unescape? cs)
  | ['\\'] => none
  | c :: cs => (unescape? cs).map (c :: ·)

mutual

/-- A value; constants hold no variables at any depth. -/
def value (isConst : Bool) : Nat → Tokens → Except Position (Value × Tokens)
  | 0, ts => refuse ts
  | fuel + 1, ts =>
    match ts with
    | ⟨_, .token (.name n)⟩ :: rest => .ok (.ofName (String.ofList n), rest)
    | ⟨pos, .token (.int text)⟩ :: rest =>
      match intValue? text with
      | some n => .ok (.int n, rest)
      | none => .error pos
    | ⟨pos, .token (.float text)⟩ :: rest =>
      if hasExponentDigits text then .ok (.float (String.ofList text), rest) else .error pos
    | ⟨pos, .token (.string raw)⟩ :: rest =>
      match unescape? raw with
      | some cs => .ok (.string (String.ofList cs), rest)
      | none => .error pos
    | ⟨_, .token (.block raw)⟩ :: rest => .ok (.block (String.ofList raw), rest)
    | ⟨pos, .token (.punctuator .dollar)⟩ :: rest =>
      if isConst then .error pos
      else do
        let (n, rest) ← expectName rest
        return (.variable n, rest)
    | ⟨_, .token (.punctuator .bracketOpen)⟩ :: rest => do
      let (items, rest) ← values isConst fuel rest
      return (.list items, rest)
    | ⟨_, .token (.punctuator .braceOpen)⟩ :: rest => do
      let (fields, rest) ← objectFields isConst fuel rest
      return (.object fields, rest)
    | ts => refuse ts

/-- Values up to a closing bracket. -/
def values (isConst : Bool) : Nat → Tokens → Except Position (List Value × Tokens)
  | 0, ts => refuse ts
  | fuel + 1, ts =>
    match ts with
    | ⟨_, .token (.punctuator .bracketClose)⟩ :: rest => .ok ([], rest)
    | ts => do
      let (item, ts) ← value isConst fuel ts
      let (items, ts) ← values isConst fuel ts
      return (item :: items, ts)

/-- Named values up to a closing brace. -/
def objectFields (isConst : Bool) :
    Nat → Tokens → Except Position (List (String × Value) × Tokens)
  | 0, ts => refuse ts
  | fuel + 1, ts =>
    match ts with
    | ⟨_, .token (.punctuator .braceClose)⟩ :: rest => .ok ([], rest)
    | ts => do
      let (n, ts) ← expectName ts
      let ts ← expect .colon ts
      let (v, ts) ← value isConst fuel ts
      let (fields, ts) ← objectFields isConst fuel ts
      return ((n, v) :: fields, ts)

end

def argument (ts : Tokens) : Except Position ((String × Value) × Tokens) := do
  let (n, ts) ← expectName ts
  let ts ← expect .colon ts
  let (v, ts) ← value false (steps ts) ts
  return ((n, v), ts)

/-- Arguments up to a closing parenthesis. -/
def argumentsTail : Nat → Tokens → Except Position (List (String × Value) × Tokens)
  | 0, ts => refuse ts
  | fuel + 1, ts =>
    if startsWith .parenClose ts then .ok ([], ts.drop 1)
    else do
      let (arg, ts) ← argument ts
      let (args, ts) ← argumentsTail fuel ts
      return (arg :: args, ts)

/-- At least one argument in parentheses, or nothing. -/
def arguments (ts : Tokens) : Except Position (List (String × Value) × Tokens) :=
  if startsWith .parenOpen ts then do
    let ts := ts.drop 1
    let (arg, ts) ← argument ts
    let (args, ts) ← argumentsTail (steps ts) ts
    return (arg :: args, ts)
  else .ok ([], ts)

def directivesTail : Nat → Tokens → Except Position (List Directive × Tokens)
  | 0, ts => refuse ts
  | fuel + 1, ts =>
    if startsWith .atSign ts then do
      let (n, ts) ← expectName (ts.drop 1)
      let (args, ts) ← arguments ts
      let (directives, ts) ← directivesTail fuel ts
      return (⟨n, args⟩ :: directives, ts)
    else .ok ([], ts)

def directives (ts : Tokens) : Except Position (List Directive × Tokens) :=
  directivesTail (steps ts) ts

/-- The name after a colon, if the first name turns out to be an alias. -/
def aliased (n : String) (ts : Tokens) : Except Position (Option String × String × Tokens) :=
  if startsWith .colon ts then do
    let (field, ts) ← expectName (ts.drop 1)
    return (some n, field, ts)
  else .ok (none, n, ts)

mutual

def selection : Nat → Tokens → Except Position (Selection × Tokens)
  | 0, ts => refuse ts
  | fuel + 1, ts =>
    match ts with
    | ⟨_, .token (.name n)⟩ :: rest => do
      let (alias?, n, ts) ← aliased (String.ofList n) rest
      let (args, ts) ← arguments ts
      let (dirs, ts) ← directives ts
      if startsWith .braceOpen ts then
        let (sels, ts) ← selectionSet fuel ts
        return (.field alias? n args dirs sels, ts)
      else return (.field alias? n args dirs [], ts)
    | ⟨_, .token (.punctuator .ellipsis)⟩ :: rest =>
      match name? rest with
      | some (n, ts) =>
        if n = "on" then do
          let (condition, ts) ← expectName ts
          let (dirs, ts) ← directives ts
          let (sels, ts) ← selectionSet fuel ts
          return (.inline (some condition) dirs sels, ts)
        else do
          let (dirs, ts) ← directives ts
          return (.spread n dirs, ts)
      | none => do
        let (dirs, ts) ← directives rest
        let (sels, ts) ← selectionSet fuel ts
        return (.inline none dirs sels, ts)
    | ts => refuse ts

/-- At least one selection in braces. -/
def selectionSet : Nat → Tokens → Except Position (List Selection × Tokens)
  | 0, ts => refuse ts
  | fuel + 1, ts => do
    let ts ← expect .braceOpen ts
    let (sel, ts) ← selection fuel ts
    let (sels, ts) ← selectionsTail fuel ts
    return (sel :: sels, ts)

/-- Selections up to a closing brace. -/
def selectionsTail : Nat → Tokens → Except Position (List Selection × Tokens)
  | 0, ts => refuse ts
  | fuel + 1, ts =>
    if startsWith .braceClose ts then .ok ([], ts.drop 1)
    else do
      let (sel, ts) ← selection fuel ts
      let (sels, ts) ← selectionsTail fuel ts
      return (sel :: sels, ts)

end

/-- The type of a variable: a name or a type in brackets, then possibly an exclamation mark. -/
def variableType : Nat → Tokens → Except Position Tokens
  | 0, ts => refuse ts
  | fuel + 1, ts => do
    let ts ← if startsWith .bracketOpen ts then do
        let ts ← variableType fuel (ts.drop 1)
        expect .bracketClose ts
      else do
        let (_, ts) ← expectName ts
        pure ts
    return if startsWith .bang ts then ts.drop 1 else ts

def variableDefinition (ts : Tokens) : Except Position Tokens := do
  let ts ← expect .dollar ts
  let (_, ts) ← expectName ts
  let ts ← expect .colon ts
  let ts ← variableType (steps ts) ts
  if startsWith .equals ts then
    let (_, ts) ← value true (steps ts) (ts.drop 1)
    return ts
  else return ts

def variableDefinitionsTail : Nat → Tokens → Except Position Tokens
  | 0, ts => refuse ts
  | fuel + 1, ts =>
    if startsWith .parenClose ts then .ok (ts.drop 1)
    else do
      let ts ← variableDefinition ts
      variableDefinitionsTail fuel ts

/-- At least one definition in parentheses, or nothing. -/
def variableDefinitions (ts : Tokens) : Except Position Tokens :=
  if startsWith .parenOpen ts then do
    let ts ← variableDefinition (ts.drop 1)
    variableDefinitionsTail (steps ts) ts
  else .ok ts

def operationTail (kind : Operation) (ts : Tokens) : Except Position (Definition × Tokens) := do
  let (operationName?, ts) := match name? ts with
    | some (n, ts) => (some n, ts)
    | none => (none, ts)
  let ts ← variableDefinitions ts
  let (_, ts) ← directives ts
  let (sels, ts) ← selectionSet (steps ts) ts
  return (.operation kind operationName? sels, ts)

def fragmentTail (ts : Tokens) : Except Position (Definition × Tokens) := do
  let (n, ts) ← expectName ts
  match name? ts with
  | some ("on", ts) =>
    let (condition, ts) ← expectName ts
    let (_, ts) ← directives ts
    let (sels, ts) ← selectionSet (steps ts) ts
    return (.fragment n condition sels, ts)
  | _ => refuse ts

/-- A bare selection set is a query. -/
def definition (ts : Tokens) : Except Position (Definition × Tokens) :=
  match name? ts with
  | some (n, rest) =>
    match Operation.ofKeyword? n with
    | some kind => operationTail kind rest
    | none => if n = "fragment" then fragmentTail rest else refuse ts
  | none => do
    let (sels, ts) ← selectionSet (steps ts) ts
    return (.operation .query none sels, ts)

def definitionsTail : Nat → Tokens → Except Position Document
  | 0, ts => refuse ts
  | fuel + 1, ts =>
    match ts with
    | [⟨_, .finish⟩] => .ok []
    | ts => do
      let (d, ts) ← definition ts
      let ds ← definitionsTail fuel ts
      return d :: ds

/-- At least one definition, up to the end of the text. -/
def ofTokens (ts : Tokens) : Except Position Document := do
  let (d, ts) ← definition ts
  let ds ← definitionsTail (steps ts) ts
  return d :: ds

/-- Reads a text; one that is no document is refused at a position. -/
def parse (text : String) : Except Position Document :=
  ofTokens (Located.ofText text)

end QueryPicker.Document
