/-! Double-precision numbers as words of 64 bits: a sign bit, eleven exponent bits and 52 fraction
bits. -/

namespace MiniPascal

/-- A double-precision number, given by its bits. -/
structure Double where
  bits : UInt64
  deriving DecidableEq, Repr

namespace Double

/-- Positive zero. -/
def zero : Double := ⟨0⟩

/-- One. -/
def one : Double := ⟨0x3FF0000000000000⟩

/-- Positive infinity. -/
def infinity : Double := ⟨0x7FF0000000000000⟩

/-- What an invalid operation such as `∞ - ∞` gives: a quiet NaN with the sign bit set. -/
def invalid : Double := ⟨0xFFF8000000000000⟩

/-- The weight of the sign bit. -/
def signWeight : Nat := 0x8000000000000000

/-- The weight of the last bit of the exponent, and of the digit in front of the fraction that a
normal number has without a bit for it. -/
def hiddenWeight : Nat := 0x10000000000000

/-- Whether the sign bit is set. -/
def isNegative (x : Double) : Bool := decide (signWeight ≤ x.bits.toNat)

/-- The bits below the sign bit, which order the numbers of one sign by size. -/
def magnitude (x : Double) : Nat := x.bits.toNat % signWeight

/-- The eleven bits of the exponent. -/
def exponentField (x : Double) : Nat := x.magnitude / hiddenWeight

/-- The 52 bits of the fraction. -/
def fractionField (x : Double) : Nat := x.magnitude % hiddenWeight

/-- Whether the word is not a number. -/
def isNaN (x : Double) : Bool := decide (infinity.magnitude < x.magnitude)

/-- Whether the word is an infinity of either sign. -/
def isInfinite (x : Double) : Bool := decide (x.magnitude = infinity.magnitude)

/-- A number that orders words as they order as numbers; both zeros have rank zero. -/
def rank (x : Double) : Int := if x.isNegative then -(x.magnitude : Int) else x.magnitude

/-- Equality of numbers: nothing equals a word that is not a number, and the zeros are equal. -/
def eq (x y : Double) : Bool := !x.isNaN && !y.isNaN && decide (x.rank = y.rank)

/-- The order of numbers, in which a word that is not a number has no place. -/
def lt (x y : Double) : Bool := !x.isNaN && !y.isNaN && decide (x.rank < y.rank)

/-- Less or equal. -/
def le (x y : Double) : Bool := x.lt y || x.eq y

/-- Flips the sign bit. -/
def neg (x : Double) : Double := ⟨x.bits ^^^ 0x8000000000000000⟩

/-- Sets the top bit of the fraction, which marks a quiet NaN. -/
def quiet (x : Double) : Double := ⟨x.bits ||| 0x0008000000000000⟩

/-- Applies an operation of the hardware. -/
def arithmetic (op : Float → Float → Float) (x y : Double) : Double :=
  if x.isNaN then x.quiet
  else if y.isNaN then y.quiet
  else
    let z := op (Float.ofBits x.bits) (Float.ofBits y.bits)
    if z.isNaN then invalid else ⟨z.toBits⟩

/-- The sum. -/
def add : Double → Double → Double := arithmetic (· + ·)

/-- The difference. -/
def sub : Double → Double → Double := arithmetic (· - ·)

/-- The product. -/
def mul : Double → Double → Double := arithmetic (· * ·)

/-- The quotient. -/
def div : Double → Double → Double := arithmetic (· / ·)

/-- The number nearest to a 64-bit integer. -/
def ofInt64 (n : Int64) : Double := ⟨n.toFloat.toBits⟩

end Double

end MiniPascal
