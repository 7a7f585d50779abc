import MiniPascal.Double.Basic

/-! Writing a double with the fewest decimal digits that read back as the same double. -/

namespace MiniPascal.Double

/-- The significand `m` and the exponent `q` of a finite number `m · 2^q`. -/
def parts (x : Double) : Nat × Int :=
  if x.exponentField = 0 then (x.fractionField, -1074)
  else (hiddenWeight + x.fractionField, (x.exponentField : Int) - 1075)

namespace Shortest

/-- A positive number between the ends of the interval that rounds to it: `low / den`,
`value / den` and `high / den`. -/
structure Span where
  low : Nat
  value : Nat
  high : Nat
  den : Nat
  closed : Bool

/-- The interval of `m · 2^q`, in quarters of the unit `2^q`. Below a power of two the neighbour is
only half as far away. -/
def span (m : Nat) (q : Int) : Span :=
  let scale := 1 <<< (q - 2).toNat
  let gap := if m = hiddenWeight ∧ q ≠ -1074 then 1 else 2
  { low := (4 * m - gap) * scale
    value := 4 * m * scale
    high := (4 * m + 2) * scale
    den := 1 <<< (2 - q).toNat
    closed := m % 2 = 0 }

/-- The place of the decimal point: the number lies in `[10^(k-1), 10^k)`. Every positive double
times `10^400` is above one. -/
def point (s : Span) : Int :=
  ((Nat.toDigits 10 (s.value * Nat.pow 10 400 / s.den)).length : Int) - 400

/-- The neighbour on the grid of `count` digits that is nearest and inside the interval. -/
def onGrid? (s : Span) (k : Int) (count : Nat) : Option Nat :=
  let up := Nat.pow 10 ((count : Int) - k).toNat
  let unit := s.den * Nat.pow 10 (k - count).toNat
  let inside (c : Nat) : Bool :=
    if s.closed then s.low * up ≤ c * unit && c * unit ≤ s.high * up
    else s.low * up < c * unit && c * unit < s.high * up
  let below := s.value * up / unit
  let nearer := s.value * up - below * unit < (below + 1) * unit - s.value * up
  if inside below && (nearer || !inside (below + 1)) then some below
  else if inside (below + 1) then some (below + 1)
  else none

/-- The digits of a positive number and the place of its point: `0.d₁d₂… · 10^k`. -/
def digits (m : Nat) (q : Int) : List Char × Int :=
  let s := span m q
  let k := point s
  match (List.range 17).findSome? fun n => (onGrid? s k (n + 1)).map fun c => (c, n + 1) with
  | some (c, count) =>
    if c = Nat.pow 10 count then (['1'], k + 1) else (Nat.toDigits 10 c, k)
  | none => (Nat.toDigits 10 s.value, k)

end Shortest

/-- How digits are set out. The digits `0.d₁d₂… · 10^k` are written without an exponent where
`least ≤ k ≤ most`. -/
structure Layout where
  least : Int
  most : Int
  mark : Char
  infinite : String
  invalid : String

/-- Numbers from `0.0001` up to below `10^16` have no exponent. -/
def Layout.standard : Layout := ⟨-3, 16, 'e', "inf", "NaN"⟩

/-- Digits with a point and at least one digit on either side of it. -/
def positional (ds : List Char) (k : Int) : List Char :=
  if k ≤ 0 then '0' :: '.' :: List.replicate (-k).toNat '0' ++ ds
  else
    let whole := ds.take k.toNat ++ List.replicate (k.toNat - ds.length) '0'
    let fraction := ds.drop k.toNat
    whole ++ '.' :: (if fraction.isEmpty then ['0'] else fraction)

/-- Digits with one of them before the point, no point after a lone digit, and an exponent. -/
def exponential (mark : Char) (ds : List Char) (k : Int) : List Char :=
  let fraction := ds.drop 1
  ds.take 1 ++ (if fraction.isEmpty then [] else '.' :: fraction)
    ++ mark :: (toString (k - 1)).toList

/-- The text of a double under a layout. -/
def write (layout : Layout) (x : Double) : String :=
  if x.isNaN then layout.invalid
  else
    let body :=
      if x.isInfinite then layout.infinite
      else if x.magnitude = 0 then "0.0"
      else
        let (ds, k) := Shortest.digits x.parts.1 x.parts.2
        String.ofList <|
          if layout.least ≤ k && k ≤ layout.most then positional ds k
          else exponential layout.mark ds k
    if x.isNegative then "-" ++ body else body

/-- The text of a double. -/
def describe (x : Double) : String := x.write Layout.standard

end MiniPascal.Double
