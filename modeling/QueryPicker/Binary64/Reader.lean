import QueryPicker.Binary64.Basic

/-!
# Reading decimals

A decimal numeral stands for the nearest number. Infinity and the undefined number are written as
words.
-/

namespace QueryPicker.Binary64

def digitsValue (cs : List Char) : Nat := cs.foldl (fun n c => n * 10 + (c.toNat - 48)) 0

def signed (cs : List Char) : Bool × List Char :=
  match cs with
  | '-' :: cs => (true, cs)
  | '+' :: cs => (false, cs)
  | cs => (false, cs)

/-- An exponent with its mark, or nothing. -/
def exponent? : List Char → Option Int
  | [] => some 0
  | c :: cs =>
    let (negative, digits) := signed cs
    if (c == 'e' || c == 'E') && !digits.isEmpty && digits.all Char.isDigit then
      some (if negative then -(digitsValue digits : Int) else digitsValue digits)
    else none

def parse? (text : String) : Option Binary64 :=
  let (negative, cs) := signed text.toList
  if cs = "inf".toList then some (infinity negative)
  else if cs = "NaN".toList then some nan
  else
    let whole := cs.takeWhile Char.isDigit
    let (fraction, rest) := match cs.dropWhile Char.isDigit with
      | '.' :: cs => (cs.takeWhile Char.isDigit, cs.dropWhile Char.isDigit)
      | cs => ([], cs)
    if whole.isEmpty && fraction.isEmpty then none
    else
      (exponent? rest).map fun e =>
        ofDecimal negative (digitsValue (whole ++ fraction)) (e - fraction.length)

example : parse? "-2.5e0" = some ⟨0xC004000000000000⟩ := by decide +kernel

end QueryPicker.Binary64
