/-!
# Spill weights

A weight is a binary32 number, kept as its bit pattern: one sign bit, eight exponent bits
and 23 fraction bits. Every finite weight is a whole number of units of 2^-149, so all the
arithmetic here is exact arithmetic on natural numbers followed by one rounding to the
nearest weight, ties to the even one. Costs are never negative, and the operations are for
weights that are not.

The order is that of the numbers: the two zeros are equal, and a pattern that is not a
number compares with nothing. Written out, a weight has four decimals.
-/

namespace SsaBackend

/-- A binary32 number, as its bit pattern. -/
structure Weight where
  bits : UInt32
  deriving DecidableEq, Repr, Inhabited

/-- The quotient `n / d` to the nearest whole number, a half going to the even one. -/
def roundDiv (n d : Nat) : Nat :=
  if 2 * (n % d) < d then n / d
  else if d < 2 * (n % d) then n / d + 1
  else n / d + n / d % 2

/-- The `k`-th power of two. -/
def twoPow (k : Nat) : Nat := Nat.pow 2 k

namespace Weight

/-! ## Reading the pattern -/

/-- The sign bit. -/
def negative (w : Weight) : Bool := w.bits.toNat / twoPow 31 = 1

/-- The exponent field. -/
def exponent (w : Weight) : Nat := w.bits.toNat / twoPow 23 % twoPow 8

/-- The fraction field. -/
def fraction (w : Weight) : Nat := w.bits.toNat % twoPow 23

/-- A full exponent field with a fraction is not a number. -/
def isNaN (w : Weight) : Bool := w.exponent = 255 && w.fraction != 0

/-- A full exponent field without a fraction is infinite. -/
def isInfinite (w : Weight) : Bool := w.exponent = 255 && w.fraction = 0

/-- The magnitude in units of 2^-149. An infinite weight reads as the number that would
come after the largest finite one. -/
def magnitude (w : Weight) : Nat :=
  if w.exponent = 0 then w.fraction else (w.fraction + twoPow 23) * twoPow (w.exponent - 1)

/-- The value in units of 2^-149. -/
def units (w : Weight) : Int := if w.negative then -(w.magnitude : Int) else w.magnitude

/-! ## Rounding -/

/-- How many units make one. -/
def unitScale : Nat := twoPow 149

/-- The pattern of positive infinity. -/
def infinity : Weight := ⟨0x7f800000⟩

/-- Zero. -/
def zero : Weight := ⟨0⟩

/-- The weight nearest to `n / d` units of 2^-149. The quotient is rounded to 24 bits; a
carry out of the fraction raises the exponent field, and a carry out of the largest finite
weight is infinity. -/
def ofUnits (n d : Nat) : Weight :=
  let shift := (n / d).log2 - 23
  let bits := shift * twoPow 23 + roundDiv n (d * twoPow shift)
  if bits < 255 * twoPow 23 then ⟨UInt32.ofNat bits⟩ else infinity

/-- The weight nearest to a natural number. -/
def ofNat (n : Nat) : Weight := ofUnits (n * unitScale) 1

/-! ## Arithmetic on weights that are not negative -/

/-- The rounded sum. -/
def add (a b : Weight) : Weight := ofUnits (a.magnitude + b.magnitude) 1

/-- The rounded product. -/
def mul (a b : Weight) : Weight := ofUnits (a.magnitude * b.magnitude) unitScale

/-- The rounded quotient. -/
def div (a b : Weight) : Weight :=
  if b.magnitude = 0 then infinity else ofUnits (a.magnitude * unitScale) b.magnitude

/-- One binary digit of an exponent: the power gathered so far takes the factor in if the
digit is set, and the factor is squared for the next digit. -/
def powStep (acc : Weight × Weight) (digit : Bool) : Weight × Weight :=
  (if digit then acc.1.mul acc.2 else acc.1, acc.2.mul acc.2)

/-- The `n`-th power by repeated squaring, rounded at every multiplication. -/
def pow (a : Weight) (n : Nat) : Weight :=
  (((List.range (n.log2 + 1)).map n.testBit).foldl powStep (ofNat 1, a)).1

/-! ## Order -/

/-- Whether both are numbers and the first is at most the second. -/
def le (a b : Weight) : Bool := !a.isNaN && !b.isNaN && decide (a.units ≤ b.units)

/-! ## Written form -/

/-- How many decimals are written. -/
def decimals : Nat := 4

/-- How many of the last decimal's units make one. -/
def decimalScale : Nat := Nat.pow 10 decimals

/-- A whole number of units of 10^-4 with its decimal point. -/
def decimalText (k : Nat) : String :=
  let low := toString (k % decimalScale)
  let zeros := String.ofList (List.replicate (decimals - low.length) '0')
  toString (k / decimalScale) ++ "." ++ zeros ++ low

/-- Four decimals, the exact value rounded to the nearest, a half going to the even digit. -/
def text (w : Weight) : String :=
  if w.isNaN then "NaN"
  else
    let body :=
      if w.isInfinite then "inf"
      else decimalText (roundDiv (w.magnitude * decimalScale) unitScale)
    if w.negative then "-" ++ body else body

instance : ToString Weight := ⟨text⟩

end Weight

end SsaBackend
