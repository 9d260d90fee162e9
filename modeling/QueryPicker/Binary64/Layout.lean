import QueryPicker.Binary64.Shortest

/-!
# Decimal notation

How the digits of a number are laid out: positional for ordinary sizes, with an exponent otherwise.
-/

namespace QueryPicker.Binary64

structure Layout where
  /-- Numbers at least `10 ^ leastPositional` and below `10 ^ leastScientific` are positional. -/
  leastPositional : Int
  leastScientific : Int
  /-- What stands between the digits and an exponent that is not negative. -/
  positiveMark : String
  negativeMark : String
  tie : Tie

def zeros (n : Nat) : String := String.ofList (List.replicate n '0')

/-- Positional notation always has a digit on both sides of the point. -/
def Decimal.positional (d : Decimal) : String :=
  let digits := toString d.digits
  let count : Int := digits.length
  if 0 ≤ d.exponent then digits ++ zeros d.exponent.toNat ++ ".0"
  else if -d.exponent < count then
    let whole := (count + d.exponent).toNat
    String.ofList (digits.toList.take whole) ++ "." ++ String.ofList (digits.toList.drop whole)
  else "0." ++ zeros (-d.exponent - count).toNat ++ digits

/-- One digit before the point, and no point if no other digit follows. -/
def Decimal.scientific (layout : Layout) (d : Decimal) : String :=
  let digits := toString d.digits
  let exponent := d.exponent + digits.length - 1
  let fraction := String.ofList (digits.toList.drop 1)
  String.ofList (digits.toList.take 1) ++ (if fraction.isEmpty then "" else "." ++ fraction) ++
    (if exponent < 0 then layout.negativeMark ++ toString (-exponent).toNat
      else layout.positiveMark ++ toString exponent.toNat)

def Decimal.write (layout : Layout) (d : Decimal) : String :=
  let leading := d.exponent + (toString d.digits).length - 1
  if layout.leastPositional ≤ leading && leading < layout.leastScientific then d.positional
  else d.scientific layout

def write (layout : Layout) (x : Binary64) : String :=
  if x.isNaN then "NaN"
  else
    (if x.isNegative then "-" else "") ++
      (if x.isInfinite then "inf"
        else if x.isZero then "0.0"
        else (x.shortest layout.tie).write layout)

end QueryPicker.Binary64
