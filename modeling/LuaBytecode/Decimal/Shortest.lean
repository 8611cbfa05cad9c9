import LuaBytecode.Binary64

/-! # The shortest decimal that reads back

Every decimal between the midpoints to the two neighbours of a double reads back as that double;
the midpoints themselves do so when the significand is even. `shortest` tries one digit, then two,
and so on: on each grid only the two points around the number can be the answer. All of it is exact
integer arithmetic on fractions with a common denominator.
-/

namespace LuaBytecode

/-- The number `coefficient * 10 ^ scale`. -/
structure Decimal where
  coefficient : Nat
  scale : Int
  deriving DecidableEq, Repr

/-- Which of two equally near decimals is taken. -/
inductive Decimal.Tie where
  | up
  | even
  deriving DecidableEq, Repr

namespace Decimal

/-- A positive number with the span of decimals that read back as it; all three are numerators
over one denominator. -/
structure Span where
  low : Nat
  value : Nat
  high : Nat
  denominator : Nat
  closed : Bool

/-- The span of a finite, non-zero double, its sign left out. The gap below a power of two is half
as wide as the gap above it. -/
def Span.ofBinary64 (f : Binary64) : Span :=
  let size := 4 * f.significand
  let narrow := f.significand = Binary64.hiddenUnit ∧ 1 < f.biasedExponent
  let gap := if narrow then 1 else 2
  let exponent := f.exponent - 2
  { low := (size - gap) <<< exponent.toNat
    value := size <<< exponent.toNat
    high := (size + 2) <<< exponent.toNat
    denominator := 1 <<< (-exponent).toNat
    closed := f.significand % 2 == 0 }

/-- The power `10 ^ k`. -/
def tenPow (k : Nat) : Nat := Nat.pow 10 k

/-- Number of decimal digits; 0 has none. -/
def digitCount (n : Nat) : Nat :=
  if n = 0 then 0 else digitCount (n / 10) + 1
termination_by n
decreasing_by omega

/-- The greatest `k` with `10 ^ k ≤ value / denominator`. -/
def Span.leadingExponent (s : Span) : Int :=
  if s.denominator ≤ s.value then digitCount (s.value / s.denominator) - 1
  else
    let digits := digitCount (s.denominator / s.value)
    if s.denominator ≤ s.value * tenPow (digits - 1) then 1 - digits else -digits

/-- The same span measured in units of `10 ^ scale`. -/
def Span.rescale (s : Span) (scale : Int) : Span :=
  let up := tenPow (-scale).toNat
  { s with
    low := s.low * up
    value := s.value * up
    high := s.high * up
    denominator := s.denominator * tenPow scale.toNat }

def Span.contains (s : Span) (n : Nat) : Bool :=
  let point := n * s.denominator
  if s.closed then s.low ≤ point && point ≤ s.high else s.low < point && point < s.high

/-- The whole number nearest to the value that lies in the span. -/
def Span.nearest? (s : Span) (tie : Tie) : Option Nat :=
  let below := s.value / s.denominator
  match s.contains below, s.contains (below + 1) with
  | false, false => none
  | true, false => some below
  | false, true => some (below + 1)
  | true, true =>
    let twice := 2 * (s.value % s.denominator)
    if twice < s.denominator then some below
    else if s.denominator < twice then some (below + 1)
    else match tie with
      | .up => some (below + 1)
      | .even => some (if below % 2 = 0 then below else below + 1)

/-- Move trailing zeros of the coefficient into the scale, at most `fuel` of them. -/
def trim : Nat → Decimal → Decimal
  | 0, d => d
  | fuel + 1, d =>
    if d.coefficient % 10 = 0 then trim fuel ⟨d.coefficient / 10, d.scale + 1⟩ else d

/-- The fewest digits that read back as a finite, non-zero double, its sign left out; among
decimals of that length the nearest one. Seventeen digits are always enough. -/
def shortest (tie : Tie) (f : Binary64) : Decimal :=
  let span := Span.ofBinary64 f
  let leading := span.leadingExponent
  let attempt (digits : Nat) : Option Decimal :=
    let scale := leading - digits + 1
    ((span.rescale scale).nearest? tie).map fun n => ⟨n, scale⟩
  trim 17 (((List.range' 1 17).findSome? attempt).getD ⟨0, 0⟩)

end Decimal

end LuaBytecode
