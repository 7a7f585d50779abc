import MiniPascal.Double.Basic

/-! Reading decimal notation: the double nearest to `m · 10^e`, where of two equally near ones the
one with the even last bit is taken. -/

namespace MiniPascal

/-- The quotient rounded to the nearest natural, a tie to the even one. -/
def roundDivEven (num den : Nat) : Nat :=
  let n := num / den
  let twice := 2 * (num % den)
  if den < twice || (twice = den && n % 2 = 1) then n + 1 else n

namespace Double

/-- The word for `count · 2^unit`, where `count` has at most 53 binary digits and all of them
unless `unit` is `-1074`. -/
def ofUnits (count : Nat) (unit : Int) : Double :=
  let word := (unit + 1074).toNat * hiddenWeight + count
  if infinity.magnitude ≤ word then infinity else ⟨UInt64.ofNat word⟩

/-- The quotient `num / den / 2^unit` rounded to a natural. -/
def countUnits (num den : Nat) (unit : Int) : Nat :=
  roundDivEven (num <<< (-unit).toNat) (den <<< unit.toNat)

/-- Whether `num / den < 2^52 · 2^unit`. -/
def isBelowUnits (num den : Nat) (unit : Int) : Bool :=
  decide (num <<< (-unit).toNat < hiddenWeight * (den <<< unit.toNat))

/-- The double nearest to a positive quotient. -/
def ofRatio (num den : Nat) : Double :=
  let unit : Int := (num.log2 : Int) - den.log2 - 52
  let unit := if isBelowUnits num den unit then unit - 1 else unit
  let unit := max unit (-1074)
  ofUnits (countUnits num den unit) unit

/-- The double nearest to `m · 10^e`. Numbers of more than 310 digits before the point are beyond
the largest double, and those with 330 zeros behind it are below half of the smallest. -/
def ofScaled (m : Nat) (e : Int) : Double :=
  let size : Int := (Nat.toDigits 10 m).length + e
  if m = 0 || size < -330 then zero
  else if 310 < size then infinity
  else ofRatio (m * Nat.pow 10 e.toNat) (Nat.pow 10 (-e).toNat)

end Double

end MiniPascal
