/-!
# Numbers of limited precision

A number of limited precision has 53 significant binary digits.  A decimal stands
for the nearest such number, and of two at the same distance for the one whose last
digit is zero.
-/

namespace SafeRefactor.Rounding

/-- A quotient as a whole number; a half goes to the even neighbour. -/
def quotient (numerator denominator : Nat) : Nat :=
  let whole := numerator / denominator
  let twice := 2 * (numerator % denominator)
  if twice < denominator || (twice = denominator && whole % 2 = 0) then whole else whole + 1

/-- The number of significant binary digits. -/
def precision : Nat :=
  53

/-- The number of limited precision nearest to a quotient, if it is a whole number.  Below one
only zero is whole. -/
def wholeNearest? (numerator denominator : Nat) : Option Nat :=
  if numerator < denominator then
    if numerator = 0 then some 0 else none
  else
    let digits := Nat.log2 (numerator / denominator) + 1
    if digits ≤ precision then
      let scale := Nat.pow 2 (precision - digits)
      let scaled := quotient (numerator * scale) denominator
      if scaled % scale = 0 then some (scaled / scale) else none
    else
      let unit := Nat.pow 2 (digits - precision)
      some (quotient numerator (denominator * unit) * unit)

end SafeRefactor.Rounding
