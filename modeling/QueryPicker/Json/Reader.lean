import QueryPicker.Json.Basic

/-!
# Reading JSON text

A reader takes a value off the front of the text and hands back the rest. Every way in which a text
can fail to be JSON is a cause of its own. Arrays and objects nest to a fixed depth. A value can be
skimmed too: then its form alone counts, and numbers out of range and halves of surrogate pairs
pass.
-/

namespace QueryPicker

inductive JsonError where
  | endInValue
  | endInObject
  | endInList
  | endInString
  | expectedValue
  | brokenWord
  | invalidNumber
  | numberOutOfRange
  | keyNotString
  | expectedColon
  | expectedMemberEnd
  | expectedItemEnd
  | trailingComma
  | trailingCharacters
  | invalidEscape
  | unfinishedSurrogatePair
  | loneSurrogate
  | controlCharacter
  | tooDeep
  deriving DecidableEq, Inhabited

def JsonError.message : JsonError → String
  | .endInValue => "EOF while parsing a value"
  | .endInObject => "EOF while parsing an object"
  | .endInList => "EOF while parsing a list"
  | .endInString => "EOF while parsing a string"
  | .expectedValue => "expected value"
  | .brokenWord => "expected ident"
  | .invalidNumber => "invalid number"
  | .numberOutOfRange => "number out of range"
  | .keyNotString => "key must be a string"
  | .expectedColon => "expected `:`"
  | .expectedMemberEnd => "expected `,` or `\x7d`"
  | .expectedItemEnd => "expected `,` or `]`"
  | .trailingComma => "trailing comma"
  | .trailingCharacters => "trailing characters"
  | .invalidEscape => "invalid escape"
  | .unfinishedSurrogatePair => "unexpected end of hex escape"
  | .loneSurrogate => "lone leading surrogate in hex escape"
  | .controlCharacter => "control character (\\u0000-\\u001F) found while parsing a string"
  | .tooDeep => "recursion limit exceeded"

namespace Json

namespace Reader

/-- What a reader leaves of the text. -/
abbrev Rest := List Char

def isSpace (c : Char) : Bool :=
  c == ' ' || c == '\t' || c == '\n' || c == '\r'

def skipSpace (cs : List Char) : List Char :=
  cs.dropWhile isSpace

def hexDigit? (c : Char) : Option Nat :=
  if '0' ≤ c ∧ c ≤ '9' then some (c.toNat - 48)
  else if 'a' ≤ c ∧ c ≤ 'f' then some (c.toNat - 87)
  else if 'A' ≤ c ∧ c ≤ 'F' then some (c.toNat - 55)
  else none

/-- The value of four hexadecimal digits. Fewer than four bytes count as the end of the text. -/
def hexFour (cs : List Char) : Except JsonError Nat :=
  match cs.take 4 with
  | [a, b, c, d] =>
    match hexDigit? a, hexDigit? b, hexDigit? c, hexDigit? d with
    | some a, some b, some c, some d => .ok (((a * 16 + b) * 16 + c) * 16 + d)
    | _, _, _, _ => .error .invalidEscape
  | short =>
    if (String.ofList short).utf8ByteSize < 4 then .error .endInString else .error .invalidEscape

def isTrailingSurrogate (n : Nat) : Bool := 0xDC00 ≤ n && n ≤ 0xDFFF

def isLeadingSurrogate (n : Nat) : Bool := 0xD800 ≤ n && n ≤ 0xDBFF

/-- The character after `\u`, and how many characters of the text it takes up. A character beyond
the sixteen bits of one escape is written as a pair of surrogates. -/
def unicodeEscape (skim : Bool) (cs : List Char) : Except JsonError (Char × Nat) := do
  let first ← hexFour cs
  if skim then .ok (Char.ofNat first, 4)
  else if isTrailingSurrogate first then .error .loneSurrogate
  else if isLeadingSurrogate first then
    match cs.drop 4 with
    | [] => .error .endInString
    | ['\\'] => .error .endInString
    | '\\' :: 'u' :: rest =>
      let second ← hexFour rest
      if isTrailingSurrogate second then
        .ok (Char.ofNat (0x10000 + (first - 0xD800) * 0x400 + (second - 0xDC00)), 10)
      else .error .loneSurrogate
    | _ => .error .unfinishedSurrogatePair
  else .ok (Char.ofNat first, 4)

def simpleEscape? : Char → Option Char
  | '"' => some '"'
  | '\\' => some '\\'
  | '/' => some '/'
  | 'b' => some (Char.ofNat 8)
  | 'f' => some (Char.ofNat 12)
  | 'n' => some '\n'
  | 'r' => some '\r'
  | 't' => some '\t'
  | _ => none

/-- The rest of a string after its opening quote; what was read so far is held in reverse. -/
def stringTail (skim : Bool) (acc : List Char) : List Char → Except JsonError (String × Rest)
  | [] => .error .endInString
  | '"' :: cs => .ok (String.ofList acc.reverse, cs)
  | ['\\'] => .error .endInString
  | '\\' :: 'u' :: cs =>
    match unicodeEscape skim cs with
    | .error e => .error e
    | .ok (c, taken) => stringTail skim (c :: acc) (cs.drop taken)
  | '\\' :: c :: cs =>
    match simpleEscape? c with
    | some c => stringTail skim (c :: acc) cs
    | none => .error .invalidEscape
  | c :: cs =>
    if c.toNat < 32 then .error .controlCharacter else stringTail skim (c :: acc) cs
termination_by cs => cs.length

/-- The number `digits * 10 ^ exponent`, formed by rounding twice: the digits, then the product or
quotient with the power of ten. Powers beyond the largest are applied in two steps. -/
def scaled (negative : Bool) (digits : Nat) (exponent : Int) : Binary64 :=
  let power (n : Nat) := Binary64.ofDecimal false 1 n
  let signed (x : Binary64) := if negative then x.neg else x
  let x := Binary64.ofNat digits
  if digits = 0 then signed x
  else if 308 < exponent then Binary64.infinity negative
  else if 0 ≤ exponent then signed (x.mul (power exponent.toNat))
  else if -308 ≤ exponent then signed (x.div (power (-exponent).toNat))
  else
    let x := x.div (power 308)
    if -616 ≤ exponent then signed (x.div (power (-exponent - 308).toNat))
    else Binary64.zero negative

def digitValue (c : Char) : Nat := c.toNat - 48

/-- The greatest value of the digits of a number. Further digits only count towards its size. -/
def digitsMax : Nat := UInt64.size - 1

/-- The value of the leading digits as far as it fits, their number, and what follows them. -/
def takeDigits (value : Nat) (count : Nat) : List Char → Nat × Nat × List Char
  | [] => (value, count, [])
  | c :: cs =>
    if c.isDigit && value * 10 + digitValue c ≤ digitsMax then
      takeDigits (value * 10 + digitValue c) (count + 1) cs
    else (value, count, c :: cs)

/-- The exponent of a number, from the character after the `e`. -/
def exponentTail (negative : Bool) (digits : Nat) (start : Int) (cs : List Char) :
    Except JsonError (Binary64 × Rest) :=
  let (negativeExponent, cs) := match cs with
    | '+' :: cs => (false, cs)
    | '-' :: cs => (true, cs)
    | cs => (false, cs)
  match cs with
  | [] => .error .endInValue
  | c :: _ =>
    if !c.isDigit then .error .invalidNumber
    else
      let exponent := (cs.takeWhile Char.isDigit).foldl (fun n c => n * 10 + digitValue c) 0
      let rest := cs.dropWhile Char.isDigit
      if Nat.pow 2 31 ≤ exponent then
        if digits ≠ 0 ∧ !negativeExponent then .ok (Binary64.infinity negative, rest)
        else .ok (Binary64.zero negative, rest)
      else
        let total : Int := if negativeExponent then start - exponent else start + exponent
        .ok (scaled negative digits total, rest)

def exponentOrEnd (negative : Bool) (digits : Nat) (exponent : Int) (cs : List Char) :
    Except JsonError (Binary64 × Rest) :=
  match cs with
  | 'e' :: cs => exponentTail negative digits exponent cs
  | 'E' :: cs => exponentTail negative digits exponent cs
  | cs => .ok (scaled negative digits exponent, cs)

/-- The fraction of a number, from the character after the point. -/
def fractionTail (negative : Bool) (digits : Nat) (exponent : Int) (cs : List Char) :
    Except JsonError (Binary64 × Rest) :=
  match cs with
  | [] => .error .endInValue
  | c :: _ =>
    if !c.isDigit then .error .invalidNumber
    else
      let (digits, count, rest) := takeDigits digits 0 cs
      exponentOrEnd negative digits (exponent - count) (rest.dropWhile Char.isDigit)

def floatResult : Except JsonError (Binary64 × Rest) → Except JsonError (JsonNumber × Rest)
  | .ok (x, cs) => .ok (.float x, cs)
  | .error e => .error e

/-- What follows the whole digits of a number. Whole numbers outside 64 bits become floating. -/
def numberTail (negative : Bool) (digits : Nat) (dropped : Nat) (cs : List Char) :
    Except JsonError (JsonNumber × Rest) :=
  match cs with
  | '.' :: cs => floatResult (fractionTail negative digits dropped cs)
  | 'e' :: cs => floatResult (exponentTail negative digits dropped cs)
  | 'E' :: cs => floatResult (exponentTail negative digits dropped cs)
  | cs =>
    if dropped ≠ 0 then floatResult (exponentOrEnd negative digits dropped cs)
    else if !negative then .ok (.integer digits, cs)
    else if digits = 0 ∨ Nat.pow 2 63 < digits then
      .ok (.float (Binary64.ofRatio true digits 1), cs)
    else .ok (.integer (-(digits : Int)), cs)

def number (negative : Bool) : List Char → Except JsonError (JsonNumber × Rest)
  | [] => .error .endInValue
  | '0' :: cs =>
    if (cs.head?.map Char.isDigit).getD false then .error .invalidNumber
    else numberTail negative 0 0 cs
  | c :: cs =>
    if !c.isDigit then .error .invalidNumber
    else
      let (digits, _, rest) := takeDigits 0 0 (c :: cs)
      numberTail negative digits (rest.takeWhile Char.isDigit).length (rest.dropWhile Char.isDigit)

/-- A number; one beyond the range passes only when it is skimmed. -/
def checkedNumber (skim : Bool) : Except JsonError (JsonNumber × Rest) →
    Except JsonError (Json × Rest)
  | .ok (.integer n, cs) => .ok (.number (.integer n), cs)
  | .ok (.float x, cs) =>
    if x.isInfinite && !skim then .error .numberOutOfRange else .ok (.number (.float x), cs)
  | .error e => .error e

/-- The rest of a word such as `null` after its first letter. -/
def wordTail (value : Json) : List Char → List Char → Except JsonError (Json × Rest)
  | [], cs => .ok (value, cs)
  | _ :: _, [] => .error .endInValue
  | w :: ws, c :: cs => if w = c then wordTail value ws cs else .error .brokenWord

/-- The items of an array up to its closing bracket. Every item takes up characters, so the length
of the text bounds their number. -/
def itemsTail {α : Type} (item : List Char → Except JsonError (α × Rest)) :
    Nat → Bool → List Char → Except JsonError (List α × Rest)
  | 0, _, _ => .error .endInList
  | fuel + 1, isFirst, cs =>
    let more (cs : List Char) : Except JsonError (List α × Rest) := do
      let (value, cs) ← item cs
      let (values, cs) ← itemsTail item fuel false cs
      return (value :: values, cs)
    match skipSpace cs with
    | [] => .error .endInList
    | ']' :: cs => .ok ([], cs)
    | c :: cs =>
      if isFirst then more (c :: cs)
      else if c = ',' then
        match skipSpace cs with
        | [] => .error .endInValue
        | ']' :: _ => .error .trailingComma
        | cs => more cs
      else .error .expectedItemEnd

/-- One member of an object, from its name on. -/
def member {α : Type} (skim : Bool) (item : List Char → Except JsonError (α × Rest)) :
    List Char → Except JsonError ((String × α) × Rest)
  | '"' :: cs => do
    let (name, cs) ← stringTail skim [] cs
    match skipSpace cs with
    | [] => .error .endInObject
    | ':' :: cs =>
      let (value, cs) ← item cs
      return ((name, value), cs)
    | _ => .error .expectedColon
  | _ => .error .keyNotString

/-- The members of an object up to its closing brace, repeated names included. -/
def membersTail {α : Type} (skim : Bool) (item : List Char → Except JsonError (α × Rest)) :
    Nat → Bool → List Char → Except JsonError (List (String × α) × Rest)
  | 0, _, _ => .error .endInObject
  | fuel + 1, isFirst, cs =>
    let more (cs : List Char) : Except JsonError (List (String × α) × Rest) := do
      let (m, cs) ← member skim item cs
      let (ms, cs) ← membersTail skim item fuel false cs
      return (m :: ms, cs)
    match skipSpace cs with
    | [] => .error .endInObject
    | c :: cs =>
      if c = '\x7d' then .ok ([], cs)
      else if isFirst then more (c :: cs)
      else if c = ',' then
        match skipSpace cs with
        | [] => .error .endInValue
        | c :: cs => if c = '\x7d' then .error .trailingComma else more (c :: cs)
      else .error .expectedMemberEnd

/-- A value at the front of the text; the number is how deep arrays and objects may still nest. -/
def value (skim : Bool) : Nat → List Char → Except JsonError (Json × Rest)
  | depth, cs =>
    match skipSpace cs with
    | [] => .error .endInValue
    | 'n' :: cs => wordTail .null "ull".toList cs
    | 't' :: cs => wordTail (.bool true) "rue".toList cs
    | 'f' :: cs => wordTail (.bool false) "alse".toList cs
    | '"' :: cs => do
      let (s, cs) ← stringTail skim [] cs
      return (.string s, cs)
    | '-' :: cs => checkedNumber skim (number true cs)
    | '[' :: cs =>
      match depth with
      | 0 => .error .tooDeep
      | depth + 1 => do
        let (items, cs) ← itemsTail (value skim depth) (cs.length + 1) true cs
        return (.array items, cs)
    | c :: cs =>
      if c.isDigit then checkedNumber skim (number false (c :: cs))
      else if c = '\x7b' then
        match depth with
        | 0 => .error .tooDeep
        | depth + 1 => do
          let (members, cs) ← membersTail skim (value skim depth) (cs.length + 1) true cs
          return (.object members, cs)
      else .error .expectedValue

/-- Arrays and objects may nest this deep. -/
def depthLimit : Nat := 127

end Reader

/-- Reads a whole text as one value. Repeated names are kept. -/
def readAll (depth : Nat) (text : String) : Except JsonError Json := do
  let (v, cs) ← Reader.value false depth text.toList
  if (Reader.skipSpace cs).isEmpty then .ok v else .error .trailingCharacters

mutual

/-- The same value with repeated names of members merged at every level. -/
def merge : Json → Json
  | .array items => .array (mergeItems items)
  | .object members => .object (Entries.merge (mergeValues members))
  | value => value

def mergeItems : List Json → List Json
  | [] => []
  | item :: items => merge item :: mergeItems items

def mergeValues : List (String × Json) → List (String × Json)
  | [] => []
  | (name, value) :: members => (name, merge value) :: mergeValues members

end

def parse (text : String) : Except JsonError Json :=
  (readAll Reader.depthLimit text).map merge

end Json

end QueryPicker
