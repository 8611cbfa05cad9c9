import LuaBytecode.Binary.Encoder
import LuaBytecode.Chunk.Basic

/-! # Writing chunks -/

namespace LuaBytecode

/-- The longest text, in bytes, that is written as a short string. -/
def Constant.shortLimit : Nat := 40

/-- Numbers are written at the width that the header declares, which can lose digits. -/
def Constant.encode (h : Header) : Constant → Bytes
  | .nil => [ConstantTag.nil.byte]
  | .bool false => [ConstantTag.false.byte]
  | .bool true => [ConstantTag.true.byte]
  | .int i =>
    ConstantTag.int.byte
      :: if h.integerSize = 4 then FixedWidth.encode i.toInt32 else FixedWidth.encode i
  | .float f =>
    ConstantTag.float.byte
      :: if h.floatSize = 4 then FixedWidth.encode f.toBinary32 else FixedWidth.encode f
  | .str s =>
    (if s.utf8ByteSize ≤ shortLimit then ConstantTag.shortString.byte
      else ConstantTag.longString.byte) :: Encoder.string? (some s)

def UpvalueSource.encode (u : UpvalueSource) : Bytes :=
  [if u.inStack then 1 else 0, u.index, u.kind]

def LineCheckpoint.encode (l : LineCheckpoint) : Bytes :=
  Encoder.varuint l.pc ++ Encoder.varuint l.line

def LocalVariable.encode (v : LocalVariable) : Bytes :=
  Encoder.string? (some v.name) ++ Encoder.varuint v.startPc ++ Encoder.varuint v.endPc

def DebugInfo.encode (d : DebugInfo) : Bytes :=
  Encoder.count d.lineDeltas.length ++ d.lineDeltas
    ++ Encoder.counted LineCheckpoint.encode d.checkpoints
    ++ Encoder.counted LocalVariable.encode d.locals
    ++ Encoder.counted (fun name => Encoder.string? (some name)) d.upvalueNames

/-- The source as it is written: left out where it is that of the enclosing function. -/
def Prototype.storedSource (enclosing source : Option String) : Option String :=
  if enclosing.isSome ∧ source = enclosing then none else source

mutual

/-- A function inside one with the given source. -/
def Prototype.encode (h : Header) (enclosing : Option String) : Prototype → Bytes
  | ⟨source, lineDefined, lastLineDefined, paramCount, varargFlag, stackSize, code, constants,
      upvalues, protos, debug⟩ =>
    Encoder.string? (storedSource enclosing source)
      ++ Encoder.varuint lineDefined ++ Encoder.varuint lastLineDefined
      ++ [paramCount, varargFlag, stackSize]
      ++ Encoder.counted FixedWidth.encode code.toList
      ++ Encoder.counted (Constant.encode h) constants.toList
      ++ Encoder.counted UpvalueSource.encode upvalues
      ++ Encoder.count protos.length ++ Prototype.encodeList h source protos
      ++ debug.encode

/-- Functions one after the other. -/
def Prototype.encodeList (h : Header) (enclosing : Option String) : List Prototype → Bytes
  | [] => []
  | p :: rest => p.encode h enclosing ++ encodeList h enclosing rest

end

/-- The image of a chunk. -/
def Chunk.encode (c : Chunk) : Bytes :=
  c.header.encode ++ [c.upvalueCount] ++ c.main.encode c.header none

end LuaBytecode
