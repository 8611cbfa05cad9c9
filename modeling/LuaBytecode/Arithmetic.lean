import LuaBytecode.Fault
import LuaBytecode.Number
import LuaBytecode.Opcode

/-! # Arithmetic

Two integers are worked on as integers, which wrap around at 64 bits; any other pair of operands as
floats. Quotients are rounded toward zero and remainders take the sign of the dividend. Bitwise
operations always give integers, and a power is always a float.
-/

namespace LuaBytecode

inductive ArithOp where
  | add
  | sub
  | mul
  | mod
  | pow
  | div
  | idiv
  | band
  | bor
  | bxor
  | shl
  | shr
  deriving DecidableEq, Repr

namespace ArithOp

/-- The operation behind an instruction, whether its second operand is a register, a constant or
part of the instruction. -/
def ofOpcode? : Opcode → Option ArithOp
  | .add | .addK | .addI => some .add
  | .sub | .subK => some .sub
  | .mul | .mulK => some .mul
  | .mod | .modK => some .mod
  | .pow | .powK => some .pow
  | .div | .divK => some .div
  | .idiv | .idivK => some .idiv
  | .band | .bandK => some .band
  | .bor | .borK => some .bor
  | .bxor | .bxorK => some .bxor
  | .shl | .shlI => some .shl
  | .shr | .shrI => some .shr
  | _ => none

/-- The operation on two integers. The low six bits of `j` are the distance of a shift, and a right
shift keeps the sign. -/
def onInts (op : ArithOp) (i j : Int64) : Except Fault Value :=
  match op with
  | .add => .ok (.int (i + j))
  | .sub => .ok (.int (i - j))
  | .mul => .ok (.int (i * j))
  | .div | .idiv => if j = 0 then .error .divideByZero else .ok (.int (i / j))
  | .mod => if j = 0 then .error .divideByZero else .ok (.int (i % j))
  | .pow => .ok (.float ((Binary64.ofInt64 i).pow (.ofInt64 j)))
  | .band => .ok (.int (i &&& j))
  | .bor => .ok (.int (i ||| j))
  | .bxor => .ok (.int (i ^^^ j))
  | .shl => .ok (.int (i <<< (j &&& 63)))
  | .shr => .ok (.int (i >>> (j &&& 63)))

/-- The operation on two floats. Bitwise operations take the integer parts. -/
def onFloats (op : ArithOp) (f g : Binary64) : Except Fault Value :=
  match op with
  | .add => .ok (.float (f.add g))
  | .sub => .ok (.float (f.sub g))
  | .mul => .ok (.float (f.mul g))
  | .div => .ok (.float (f.div g))
  | .idiv => .ok (.float (f.div g).truncate)
  | .mod => .ok (.float (f.mod g))
  | .pow => .ok (.float (f.pow g))
  | .band | .bor | .bxor | .shl | .shr => op.onInts f.toInt64 g.toInt64

/-- The operation on any two values. -/
def apply (op : ArithOp) : Value → Value → Except Fault Value
  | .int i, .int j => op.onInts i j
  | v, w => op.onFloats v.floatOrZero w.floatOrZero

end ArithOp

namespace Value

/-- The negative of a number; of anything else it is the float -0.0. -/
def negate : Value → Value
  | .int i => .int (-i)
  | .float f => .float f.neg
  | _ => .float .negativeZero

/-- All bits of the integer part flipped; what is not a number counts as zero. -/
def complement : Value → Value
  | .int i => .int (~~~i)
  | .float f => .int (~~~f.toInt64)
  | _ => .int (-1)

end Value

end LuaBytecode
