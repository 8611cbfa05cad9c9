import LuaBytecode.Decimal.Layout
import LuaBytecode.Text.Quoted

/-! # Constants -/

namespace LuaBytecode

/-- The values that code can hold as constants. -/
inductive Constant where
  | nil
  | bool (b : Bool)
  | int (i : Int64)
  | float (f : Binary64)
  | str (s : String)
  deriving DecidableEq, Repr, Inhabited

/-- Floats keep a point or an exponent; from `1e16` on and below `1e-4` they have an exponent. -/
def Constant.layout : Decimal.Layout where
  leastPlain := some (-4)
  greatestPlain := some 15
  wholePoint := true
  exponentPlus := false
  tie := .up
  nan := "NaN"
  infinity := "inf"

def Constant.text : Constant → String
  | .nil => "nil"
  | .bool b => if b then "true" else "false"
  | .int i => toString i.toInt
  | .float f => layout.text f
  | .str s => Text.quoted s

end LuaBytecode
