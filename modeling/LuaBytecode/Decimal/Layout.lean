import LuaBytecode.Decimal.Shortest

/-! # Writing doubles

A `Layout` holds the decisions that one output format makes: which numbers are written
positionally, how an exponent looks, and what stands for the values that are not finite. The digits
are always those of `Decimal.shortest`.
-/

namespace LuaBytecode

/-- The decisions of one number format. -/
structure Decimal.Layout where
  /-- Numbers whose leading digit has an exponent from here on are written positionally. -/
  leastPlain : Option Int
  /-- Numbers whose leading digit has an exponent up to here are written positionally. -/
  greatestPlain : Option Int
  /-- Whether a whole number written positionally ends in `.0`. -/
  wholePoint : Bool
  /-- Whether a positive exponent carries a plus sign. -/
  exponentPlus : Bool
  tie : Decimal.Tie
  nan : String
  infinity : String

namespace Decimal

/-- Text of the digits of a natural number. -/
def digits (n : Nat) : List Char :=
  Nat.toDigits 10 n

namespace Layout

def isPlain (l : Layout) (leading : Int) : Bool :=
  l.leastPlain.all (· ≤ leading) && l.greatestPlain.all (leading ≤ ·)

/-- The digits with a point after `whole` of them, padded with zeros on either side. -/
def positional (l : Layout) (ds : List Char) (whole : Int) : List Char :=
  if whole ≤ 0 then '0' :: '.' :: (List.replicate (-whole).toNat '0' ++ ds)
  else if ds.length ≤ whole.toNat then
    ds ++ List.replicate (whole.toNat - ds.length) '0' ++ if l.wholePoint then ['.', '0'] else []
  else ds.take whole.toNat ++ '.' :: ds.drop whole.toNat

/-- One digit, the others behind a point, and the exponent. -/
def scientific (l : Layout) (ds : List Char) (leading : Int) : List Char :=
  let mantissa := match ds with
    | [] => []
    | [d] => [d]
    | d :: rest => d :: '.' :: rest
  let sign := if leading < 0 then ['-'] else if l.exponentPlus then ['+'] else []
  mantissa ++ 'e' :: (sign ++ digits leading.natAbs)

/-- Text of a positive decimal. -/
def decimal (l : Layout) (d : Decimal) : List Char :=
  let ds := digits d.coefficient
  let leading := d.scale + ds.length - 1
  if l.isPlain leading then l.positional ds (leading + 1) else l.scientific ds leading

/-- Text of a double. -/
def text (l : Layout) (f : Binary64) : String :=
  if f.isNaN then l.nan
  else
    let sign := if f.isNegative then "-" else ""
    if f.isInfinite then sign ++ l.infinity
    else if f.magnitude = 0 then sign ++ (if l.wholePoint then "0.0" else "0")
    else sign ++ String.ofList (l.decimal (shortest l.tie f))

end Layout

end Decimal

end LuaBytecode
