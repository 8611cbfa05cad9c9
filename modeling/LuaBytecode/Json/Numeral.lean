import LuaBytecode.Json.Basic

/-! # Numerals in JSON text

The value of a numeral. Whole numbers of up to 64 bits are integers. Any other numeral is a float:
as many digits as fit into 64 bits are read as an integer, which is then scaled by a power of ten in
floating point. A numeral too large for a float has no value.
-/

namespace LuaBytecode.Json

/-- A numeral taken apart: its sign and the digits of its parts. -/
structure Numeral where
  negative : Bool
  whole : List Nat
  /-- The digits behind the point, if there is one. -/
  fraction : Option (List Nat)
  /-- Whether the exponent is negative, and its digits. -/
  exponent : Option (Bool × List Nat)
  deriving Repr

namespace Numeral

/-- The largest integer that digits are gathered in. -/
def significandLimit : Nat := UInt64.size - 1

/-- The largest exponent that digits are gathered in. -/
def exponentLimit : Nat := 0x7fffffff

/-- Append digits to a number while it stays within the limit; also how many were left over. -/
def gather (limit : Nat) (n : Nat) : List Nat → Nat × Nat
  | [] => (n, 0)
  | d :: rest =>
    if n * 10 + d ≤ limit then gather limit (n * 10 + d) rest else (n, rest.length + 1)

/-- A power of ten, rounded. -/
def powerOfTen (n : Nat) : Binary64 := .ofFloat (Float.ofScientific 1 false n)

/-- Scale by a power of ten, in steps of at most 308; `none` when the result is too large. -/
def scale : (steps : Nat) → Binary64 → Int → Option Binary64
  | 0, f, _ => some f
  | steps + 1, f, exponent =>
    if exponent.natAbs ≤ 308 then
      if 0 ≤ exponent then
        let product := f.mul (powerOfTen exponent.natAbs)
        if product.isInfinite then none else some product
      else some (f.div (powerOfTen exponent.natAbs))
    else if f.magnitude = 0 then some f
    else if 0 ≤ exponent then none
    else scale steps (f.div (powerOfTen 308)) (exponent + 308)

def signed (negative : Bool) (f : Binary64) : Binary64 := if negative then f.neg else f

/-- The float of a sign, digits and a power of ten. After three steps of scaling nothing is left of
the largest significand. -/
def ofParts (negative : Bool) (significand : Nat) (exponent : Int) : Option Json :=
  (scale 4 (.ofNat false significand) exponent).map fun f => .float (signed negative f)

/-- Keep an exponent within 32 bits. -/
def clampExponent (e : Int) : Int := max Int32.minValue.toInt (min Int32.maxValue.toInt e)

/-- The value of a numeral. -/
def value? (n : Numeral) : Option Json :=
  let (significand, left) := gather significandLimit 0 n.whole
  match n.fraction, n.exponent with
  | none, none =>
    if 0 < left then ofParts n.negative significand left
    else if !n.negative then some (.int significand)
    else if 0 < significand ∧ significand ≤ 1 <<< 63 then some (.int (-significand))
    else some (.float (Binary64.ofNat false significand).neg)
  | fraction, exponent =>
    let digits := fraction.getD []
    let (significand, unread) := gather significandLimit significand digits
    let start : Int := (left : Int) - (digits.length - unread : Nat)
    match exponent with
    | none => ofParts n.negative significand start
    | some (down, ds) =>
      let (size, rest) := gather exponentLimit 0 ds
      if 0 < rest then
        if significand ≠ 0 ∧ !down then none else some (.float (signed n.negative .zero))
      else
        ofParts n.negative significand (clampExponent (if down then start - size else start + size))

end Numeral

end LuaBytecode.Json
