import LuaBytecode.Value

/-! # Numbers and comparison

Only integers and floats are numbers; text is never converted. Where a number is called for, any
other value counts as zero. Integers and floats are compared by their exact values.
-/

namespace LuaBytecode

inductive Number where
  | int (i : Int64)
  | float (f : Binary64)
  deriving DecidableEq, Repr

namespace Number

def toValue : Number → Value
  | .int i => .int i
  | .float f => .float f

def toBinary64 : Number → Binary64
  | .int i => .ofInt64 i
  | .float f => f

def isPositive : Number → Bool
  | .int i => decide (0 < i)
  | .float f => f.isPositive

/-- The number less one; an integer wraps around. -/
def pred : Number → Number
  | .int i => .int (i - 1)
  | .float f => .float (f.sub ⟨0x3ff0000000000000⟩)

/-- Order of the exact values; undefined when a NaN takes part. -/
def compare? : Number → Number → Option Ordering
  | .int i, .int j => some (compare i.toInt j.toInt)
  | .int i, .float g => Binary64.compareInt? i g
  | .float f, .int j => (Binary64.compareInt? j f).map Ordering.swap
  | .float f, .float g => f.compare? g

end Number

namespace Value

def number? : Value → Option Number
  | .int i => some (.int i)
  | .float f => some (.float f)
  | _ => none

def numberOrZero (v : Value) : Number := v.number?.getD (.int 0)

def floatOrZero (v : Value) : Binary64 := v.float?.getD .zero

/-- Equality as programs see it: numbers by their values, everything else by identity. -/
def rawEquals : Value → Value → Bool
  | .int i, .float g => Number.compare? (.int i) (.float g) == some .eq
  | .float f, .int j => Number.compare? (.int j) (.float f) == some .eq
  | .float f, .float g => f.compare? g == some .eq
  | v, w => v == w

/-- Order as programs see it: two texts by their bytes, anything else as numbers. -/
def compare? : Value → Value → Option Ordering
  | .str s, .str t => some (compare s t)
  | v, w => v.numberOrZero.compare? w.numberOrZero

def lessThan (v w : Value) : Bool := v.compare? w == some .lt

def lessEqual (v w : Value) : Bool := v.compare? w == some .lt || v.compare? w == some .eq

/-- Order of a value against an integer operand. -/
def compareImmediate? (v : Value) (i : Int64) : Option Ordering :=
  v.numberOrZero.compare? (.int i)

end Value

end LuaBytecode
