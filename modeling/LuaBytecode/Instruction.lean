import LuaBytecode.Binary.Bytes
import LuaBytecode.Opcode
import LuaBytecode.Text.Hex

/-! # Instruction words

A word holds its operation in the low seven bits and the operands above it, in one of five layouts:
A (8 bits), k (1), B (8) and C (8); A and Bx (17); A and sBx, which is Bx less 65535; Ax (25); and
sJ, which is Ax less 16777215.
-/

namespace LuaBytecode

/-- A 32-bit instruction word. -/
structure Instruction where
  word : UInt32
  deriving DecidableEq, Inhabited, Repr

namespace Instruction

/-! ## Reading the fields -/

/-- The number in the `width` bits from bit `low` on. -/
def field (i : Instruction) (low width : Nat) : Nat :=
  i.word.toNat >>> low % (1 <<< width)

/-- The operation number, which need not name an operation. -/
def opcodeNumber (i : Instruction) : Nat := i.field 0 7

def opcode? (i : Instruction) : Option Opcode := Opcode.ofNumber? i.opcodeNumber

def a (i : Instruction) : UInt8 := UInt8.ofNat (i.field 7 8)

def k (i : Instruction) : Bool := i.field 15 1 == 1

def b (i : Instruction) : UInt8 := UInt8.ofNat (i.field 16 8)

def c (i : Instruction) : UInt8 := UInt8.ofNat (i.field 24 8)

/-- B as a signed byte. -/
def sb (i : Instruction) : Int := i.b.toInt8.toInt

/-- C as a signed byte. -/
def sc (i : Instruction) : Int := i.c.toInt8.toInt

def bx (i : Instruction) : Nat := i.field 15 17

def ax (i : Instruction) : Nat := i.field 7 25

/-- Distance of sBx below Bx. -/
def sbxOffset : Int := 65535

/-- Distance of sJ below Ax. -/
def sjOffset : Int := 16777215

def sbx (i : Instruction) : Int := i.bx - sbxOffset

def sj (i : Instruction) : Int := i.ax - sjOffset

/-! ## Building words -/

def ofABC (op : Opcode) (a b c : UInt8) (k : Bool) : Instruction :=
  ⟨UInt32.ofNat (op.number + a.toNat <<< 7 + k.toNat <<< 15 + b.toNat <<< 16 + c.toNat <<< 24)⟩

/-- Only the low 17 bits of `bx` are kept. -/
def ofABx (op : Opcode) (a : UInt8) (bx : Nat) : Instruction :=
  ⟨UInt32.ofNat (op.number + a.toNat <<< 7 + (bx % (1 <<< 17)) <<< 15)⟩

def ofAsBx (op : Opcode) (a : UInt8) (sbx : Int) : Instruction :=
  ofABx op a (sbx + sbxOffset).toNat

/-- Only the low 25 bits of `ax` are kept. -/
def ofAx (op : Opcode) (ax : Nat) : Instruction :=
  ⟨UInt32.ofNat (op.number + (ax % (1 <<< 25)) <<< 7)⟩

def ofSJ (op : Opcode) (sj : Int) : Instruction :=
  ofAx op (sj + sjOffset).toNat

/-! ## Text -/

/-- The operands of a word in the layout of its operation. -/
def operandText (i : Instruction) : OperandLayout → String
  | .abc => s!" A={i.a} B={i.b} C={i.c}" ++ if i.k then " k" else ""
  | .abx => s!" A={i.a} Bx={i.bx}"
  | .asbx => s!" A={i.a} sBx={i.sbx}"
  | .ax => s!" Ax={i.ax}"
  | .sj => s!" sJ={i.sj}"

def text (i : Instruction) : String :=
  match i.opcode? with
  | some op => op.mnemonic ++ i.operandText op.layout
  | none => s!"<invalid opcode {i.opcodeNumber}> {Text.hexWide 8 i.word.toNat}"

end Instruction

instance : FixedWidth Instruction where
  width := 4
  ofNat n := ⟨UInt32.ofNat n⟩
  toNat i := i.word.toNat
  toNat_lt i := i.word.toNat_lt
  ofNat_toNat i := by simp
  toNat_ofNat n h := by simpa using h

end LuaBytecode
