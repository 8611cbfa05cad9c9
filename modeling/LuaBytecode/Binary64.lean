/-! # Double-precision numbers as bit patterns

A double is its 64 bits: one sign bit, eleven exponent bits and 52 fraction bits. Comparison,
truncation and remainder are worked out exactly on the bits. Sums, products, quotients and powers
are those of the core type `Float`, which rounds to nearest.

A finite number is `significand * 2 ^ exponent`, negated when `isNegative` holds.
-/

namespace LuaBytecode

/-- A double-precision number. Equality is equality of bits, so the two zeros differ and a NaN
equals itself. -/
structure Binary64 where
  bits : UInt64
  deriving DecidableEq, Inhabited, Repr

/-- A single-precision number, given by its 32 bits. -/
structure Binary32 where
  bits : UInt32
  deriving DecidableEq, Inhabited, Repr

namespace Binary32

/-- The weight of the sign bit. -/
def signUnit : Nat := 0x80000000

/-- The weight of the lowest exponent bit, which is also that of the hidden bit. -/
def hiddenUnit : Nat := 0x800000

/-- The magnitude of the two infinities. -/
def infiniteMagnitude : Nat := 255 * hiddenUnit

end Binary32

namespace Binary64

/-! ## Fields -/

/-- The weight of the sign bit. -/
def signUnit : Nat := 0x8000000000000000

/-- The weight of the lowest exponent bit, which is also that of the hidden bit. -/
def hiddenUnit : Nat := 0x10000000000000

/-- The bits below the sign bit. Read as a number, they order the non-negative doubles. -/
def magnitude (f : Binary64) : Nat :=
  f.bits.toNat % signUnit

def isNegative (f : Binary64) : Bool :=
  decide (signUnit ≤ f.bits.toNat)

def biasedExponent (f : Binary64) : Nat :=
  f.magnitude / hiddenUnit

def fraction (f : Binary64) : Nat :=
  f.magnitude % hiddenUnit

/-- The magnitude of the two infinities; above it lie the NaNs. -/
def infiniteMagnitude : Nat :=
  2047 * hiddenUnit

def isNaN (f : Binary64) : Bool :=
  decide (infiniteMagnitude < f.magnitude)

def isInfinite (f : Binary64) : Bool :=
  decide (f.magnitude = infiniteMagnitude)

def isFinite (f : Binary64) : Bool :=
  decide (f.magnitude < infiniteMagnitude)

/-- The integer significand: the hidden bit is present unless the number is subnormal. -/
def significand (f : Binary64) : Nat :=
  if f.biasedExponent = 0 then f.fraction else f.fraction + hiddenUnit

/-- The exponent of two that belongs to the integer significand. -/
def exponent (f : Binary64) : Int :=
  (max f.biasedExponent 1 : Nat) - 1075

/-- Build a number from its sign and the bits below the sign. -/
def ofMagnitude (negative : Bool) (magnitude : Nat) : Binary64 :=
  ⟨UInt64.ofNat ((if negative then signUnit else 0) + magnitude)⟩

def zero : Binary64 := ⟨0⟩

def negativeZero : Binary64 := ⟨0x8000000000000000⟩

/-- The NaN that an operation on numbers gives when it has no numeric result. -/
def indefinite : Binary64 := ⟨0xfff8000000000000⟩

/-- Mark a NaN as quiet, which operations do to a NaN they pass on. -/
def quiet (f : Binary64) : Binary64 :=
  ⟨f.bits ||| 0x0008000000000000⟩

/-! ## Order -/

/-- Position on the number line counted in representable numbers; both zeros are at 0. -/
def ordinal (f : Binary64) : Int :=
  if f.isNegative then -(f.magnitude : Int) else f.magnitude

/-- Numeric order; undefined when a NaN takes part. -/
def compare? (f g : Binary64) : Option Ordering :=
  if f.isNaN || g.isNaN then none else some (compare f.ordinal g.ordinal)

def lt (f g : Binary64) : Bool :=
  f.compare? g == some .lt

def le (f g : Binary64) : Bool :=
  f.compare? g == some .lt || f.compare? g == some .eq

def isPositive (f : Binary64) : Bool :=
  f.compare? zero == some .gt

/-! ## Integer part -/

/-- The integer part, toward zero, of a finite number. -/
def integerPart (f : Binary64) : Int :=
  let size : Nat :=
    if 0 ≤ f.exponent then f.significand <<< f.exponent.toNat
    else f.significand >>> (-f.exponent).toNat
  if f.isNegative then -(size : Int) else size

/-- Whether a finite number has a part behind the point. -/
def hasFraction (f : Binary64) : Bool :=
  decide (f.exponent < 0 ∧ f.significand % (1 <<< (-f.exponent).toNat) ≠ 0)

/-- The integer part as a number of the same sign; what is not finite stays as it is. -/
def truncate (f : Binary64) : Binary64 :=
  if f.isNaN then f.quiet
  else if 1075 ≤ f.biasedExponent then f
  else if f.biasedExponent < 1023 then ofMagnitude f.isNegative 0
  else
    let unit := 1 <<< (1075 - f.biasedExponent)
    ofMagnitude f.isNegative (f.magnitude / unit * unit)

/-- The integer part as a 64-bit integer. A NaN gives 0 and what is out of range the nearest end. -/
def toInt64 (f : Binary64) : Int64 :=
  if f.isNaN then 0
  else if f.isInfinite then (if f.isNegative then Int64.minValue else Int64.maxValue)
  else Int64.ofInt (max Int64.minValue.toInt (min Int64.maxValue.toInt f.integerPart))

/-- The double `2 ^ 63`, the first above all 64-bit integers. -/
def aboveInt64 : Binary64 := ⟨0x43e0000000000000⟩

/-- The double `-2 ^ 63`, which is the least 64-bit integer. -/
def leastInt64 : Binary64 := ⟨0xc3e0000000000000⟩

/-- Order of an integer against a double, without rounding the integer. A double beyond all 64-bit
integers decides at once. Otherwise the integer parts decide, and between equal integer parts what
truncation cuts off. -/
def compareInt? (i : Int64) (f : Binary64) : Option Ordering :=
  if f.isNaN then none
  else if aboveInt64.le f then some .lt
  else if f.lt leastInt64 then some .gt
  else
    let whole := f.truncate
    match compare i.toInt whole.toInt64.toInt with
    | .eq => some (if whole.lt f then .lt else if f.lt whole then .gt else .eq)
    | decided => some decided

/-! ## From integers -/

/-- The double `size * 2 ^ exponent`, for a product that has at most 53 significant bits. -/
def ofScaled (negative : Bool) (size : Nat) (exponent : Int) : Binary64 :=
  if size = 0 then ofMagnitude negative 0
  else
    let shift : Int := max ((size.log2 : Int) - 52) (-1074 - exponent)
    let significand :=
      if 0 ≤ shift then size >>> shift.toNat else size <<< (-shift).toNat
    let biased : Nat := if significand < hiddenUnit then 0 else (exponent + shift + 1075).toNat
    ofMagnitude negative (biased * hiddenUnit + significand % hiddenUnit)

/-- The double nearest to a natural number; of two that are equally near, the one with the even
significand. -/
def ofNat (negative : Bool) (n : Nat) : Binary64 :=
  let shift := n.log2 - 52
  let unit := 1 <<< shift
  let twice := 2 * (n % unit)
  let below := n / unit
  let up := unit < twice ∨ (unit = twice ∧ below % 2 = 1)
  let rounded := if up then below + 1 else below
  if 1 <<< 1024 ≤ rounded * unit then ofMagnitude negative infiniteMagnitude
  else ofScaled negative rounded shift

def ofInt (i : Int) : Binary64 :=
  ofNat (decide (i < 0)) i.natAbs

def ofInt64 (i : Int64) : Binary64 :=
  ofInt i.toInt

/-! ## Arithmetic -/

def toFloat (f : Binary64) : Float :=
  Float.ofBits f.bits

def ofFloat (x : Float) : Binary64 :=
  ⟨x.toBits⟩

def neg (f : Binary64) : Binary64 :=
  ⟨f.bits + 0x8000000000000000⟩

/-- Settle which NaN a binary operation gives: the first NaN among its operands, made quiet, or
the indefinite one. -/
def settle (f g result : Binary64) : Binary64 :=
  if !result.isNaN then result
  else if f.isNaN then f.quiet
  else if g.isNaN then g.quiet
  else indefinite

/-- Carry an operation of the core type over to bit patterns. -/
def lift (op : Float → Float → Float) (f g : Binary64) : Binary64 :=
  settle f g (ofFloat (op f.toFloat g.toFloat))

def add : Binary64 → Binary64 → Binary64 := lift (· + ·)

def sub : Binary64 → Binary64 → Binary64 := lift (· - ·)

def mul : Binary64 → Binary64 → Binary64 := lift (· * ·)

def div : Binary64 → Binary64 → Binary64 := lift (· / ·)

/-- Whether a number is an odd integer. -/
def isOddInteger (f : Binary64) : Bool :=
  f.isFinite && !f.hasFraction && f.integerPart % 2 != 0

/-- The power. An odd power of a negative NaN is a positive one. -/
def pow (f g : Binary64) : Binary64 :=
  let result := lift Float.pow f g
  if f.isNaN && f.isNegative && g.isOddInteger then result.neg else result

/-- The remainder of the quotient rounded toward zero; its sign is that of `f`. -/
def mod (f g : Binary64) : Binary64 :=
  if f.isNaN || g.isNaN || f.isInfinite || g.magnitude = 0 then settle f g indefinite
  else if g.isInfinite then f
  else
    let base := min f.exponent g.exponent
    let dividend := f.significand <<< (f.exponent - base).toNat
    let divisor := g.significand <<< (g.exponent - base).toNat
    ofScaled f.isNegative (dividend % divisor) base

/-! ## Single precision -/

/-- Widen a single-precision number; every one of them is also a double. -/
def ofBinary32 (s : Binary32) : Binary64 :=
  let size := s.bits.toNat % Binary32.signUnit
  let negative := decide (Binary32.signUnit ≤ s.bits.toNat)
  if Binary32.infiniteMagnitude ≤ size then
    let wide := ofMagnitude negative (infiniteMagnitude + (size % Binary32.hiddenUnit) <<< 29)
    if wide.isNaN then wide.quiet else wide
  else if size / Binary32.hiddenUnit = 0 then ofScaled negative size (-149)
  else ofScaled negative (size % Binary32.hiddenUnit + Binary32.hiddenUnit)
    (size / Binary32.hiddenUnit - 150)

/-- Round to single precision. A NaN keeps its sign and the upper bits of its payload. -/
def toBinary32 (f : Binary64) : Binary32 :=
  if f.isNaN then
    ⟨UInt32.ofNat ((if f.isNegative then Binary32.signUnit else 0)
      + Binary32.infiniteMagnitude + f.quiet.fraction >>> 29)⟩
  else ⟨f.toFloat.toFloat32.toBits⟩

end Binary64

end LuaBytecode
