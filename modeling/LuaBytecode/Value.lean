import LuaBytecode.Constant

/-! # Values

Tables, closures and the cells of variables live in the heap; a value refers to them by number.
Equality of values is the identity that tables use for their keys: an integer never equals a float,
floats are equal when their bits are, and tables and closures are equal when they are the same one.
-/

namespace LuaBytecode

/-- The place of a variable in the heap. -/
abbrev CellRef := Nat

/-- The place of a table in the heap. -/
abbrev TableRef := Nat

/-- The place of a closure in the heap. -/
abbrev ClosureRef := Nat

inductive Value where
  | nil
  | bool (b : Bool)
  | int (i : Int64)
  | float (f : Binary64)
  | str (s : String)
  | table (ref : TableRef)
  | closure (ref : ClosureRef)
  /-- A function that the host provides under a name. -/
  | host (name : String)
  deriving DecidableEq, Inhabited, Repr

/-- The types that a program can tell apart. -/
inductive Kind where
  | nil
  | boolean
  | number
  | string
  | table
  | function
  deriving DecidableEq, Repr

def Kind.name : Kind → String
  | .nil => "nil"
  | .boolean => "boolean"
  | .number => "number"
  | .string => "string"
  | .table => "table"
  | .function => "function"

namespace Value

def ofConstant : Constant → Value
  | .nil => .nil
  | .bool b => .bool b
  | .int i => .int i
  | .float f => .float f
  | .str s => .str s

def kind : Value → Kind
  | .nil => .nil
  | .bool _ => .boolean
  | .int _ | .float _ => .number
  | .str _ => .string
  | .table _ => .table
  | .closure _ | .host _ => .function

def isNil (v : Value) : Bool := v.kind == .nil

/-- Everything but nil and false counts as true. -/
def isTruthy : Value → Bool
  | .nil | .bool false => false
  | _ => true

def isNumber (v : Value) : Bool := v.kind == .number

def isCallable (v : Value) : Bool := v.kind == .function

def int? : Value → Option Int64
  | .int i => some i
  | _ => none

/-- The value as a float, integers converted. -/
def float? : Value → Option Binary64
  | .int i => some (.ofInt64 i)
  | .float f => some f
  | _ => none

def str? : Value → Option String
  | .str s => some s
  | _ => none

def table? : Value → Option TableRef
  | .table ref => some ref
  | _ => none

/-! ## Text -/

/-- Floats are written as in listings, with a NaN in lower case. -/
def layout : Decimal.Layout := { Constant.layout with nan := "nan" }

/-- The address by which text tells one table or closure from another. -/
def address (ref : Nat) : String := Text.hexWide 12 ref

def text : Value → String
  | .nil => "nil"
  | .bool b => if b then "true" else "false"
  | .int i => toString i.toInt
  | .float f => layout.text f
  | .str s => s
  | .table ref => "table: " ++ address ref
  | .closure ref => "function: " ++ address ref
  | .host name => "function: builtin: " ++ name

end Value

end LuaBytecode
