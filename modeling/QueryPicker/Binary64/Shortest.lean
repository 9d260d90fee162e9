import QueryPicker.Binary64.Basic

/-!
# Shortest decimals

A finite number is written with the fewest decimal digits that still round to it. Of the decimals
of that length the nearest is taken. On the grid of decimals with a given number of digits only the
two neighbours of the number have to be tried.
-/

namespace QueryPicker.Binary64

/-- Which of two decimals at the same distance is taken. -/
inductive Tie where
  | even
  | up

/-- `digits * 10 ^ exponent` -/
structure Decimal where
  digits : Nat
  exponent : Int
  deriving DecidableEq

/-- The greatest `e` with `10 ^ e ≤ num / den`, for positive arguments. -/
def floorLog10 (num den : Nat) : Int :=
  let guess : Int := ((num.log2 : Int) - den.log2) * 30103 / 100000
  let reaches (e : Int) : Bool := den * Nat.pow 10 e.toNat ≤ num * Nat.pow 10 (-e).toNat
  if reaches (guess + 1) then guess + 1
  else if reaches guess then guess
  else guess - 1

/-- The decimals with `count` digits next to the number that round to it, the nearer one if both
do. The number and the ends of its rounding interval are held times four. -/
def onGrid? (tie : Tie) (m : Nat) (q : Int) (count : Nat) : Option Decimal :=
  let value := 4 * m
  let low := if m = Nat.pow 2 52 && -1074 < q then value - 1 else value - 2
  let high := value + 2
  let exponent := floorLog10 (m * Nat.pow 2 q.toNat) (Nat.pow 2 (-q).toNat) + 1 - count
  let unit := 4 * Nat.pow 10 exponent.toNat * Nat.pow 2 (-q).toNat
  let scale := Nat.pow 2 q.toNat * Nat.pow 10 (-exponent).toNat
  let within (d : Nat) : Bool :=
    if m % 2 = 0 then low * scale ≤ d * unit && d * unit ≤ high * scale
    else low * scale < d * unit && d * unit < high * scale
  let below := value * scale / unit
  let remainder := value * scale % unit
  match within below, within (below + 1) with
  | true, true =>
    let takeUpper :=
      if unit < 2 * remainder then true
      else if 2 * remainder < unit then false
      else match tie with
        | .even => below % 2 = 1
        | .up => true
    some ⟨if takeUpper then below + 1 else below, exponent⟩
  | true, false => some ⟨below, exponent⟩
  | false, true => some ⟨below + 1, exponent⟩
  | false, false => none

/-- Moves the zeros at the end of the digits into the exponent. -/
def Decimal.stripZeros : Nat → Decimal → Decimal
  | 0, d => d
  | fuel + 1, d =>
    if d.digits ≠ 0 && d.digits % 10 = 0 then stripZeros fuel ⟨d.digits / 10, d.exponent + 1⟩ else d

/-- The shortest decimal of the absolute value of a finite number other than zero. Seventeen digits
always suffice. -/
def shortest (tie : Tie) (x : Binary64) : Decimal :=
  let (m, q) := x.parts
  let found := (List.range 17).findSome? fun n => onGrid? tie m q (n + 1)
  (found.getD ⟨m, 0⟩).stripZeros 18

example : shortest .even (ofDecimal false 1 (-1)) = ⟨1, -1⟩ := by decide +kernel
example : shortest .even ⟨1⟩ = ⟨5, -324⟩ := by decide +kernel
example : shortest .even (ofDecimal false 17976931348623157 292) = ⟨17976931348623157, 292⟩ := by
  decide +kernel

end QueryPicker.Binary64
