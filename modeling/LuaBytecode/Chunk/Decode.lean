import LuaBytecode.Chunk.Basic

/-! # Reading chunks

A chunk is its header, a byte for the number of upvalues, and the entry function. A function is
read by recursion on the number of levels of nesting that are still allowed.
-/

namespace LuaBytecode

namespace Constant

/-- An integer of the width that the header declares. -/
def decodeInt (h : Header) : Decoder Int64 := do
  if h.integerSize = 4 then return (← Decoder.fixed Int32).toInt64
  else Decoder.fixed Int64

/-- A float of the width that the header declares. -/
def decodeFloat (h : Header) : Decoder Binary64 := do
  if h.floatSize = 4 then return .ofBinary32 (← Decoder.fixed Binary32)
  else Decoder.fixed Binary64

/-- A tag, then the content that belongs to it. -/
def decode (h : Header) : Decoder Constant := do
  let offset ← Decoder.position
  let tag : ConstantTag := ⟨← Decoder.byte⟩
  if tag = .nil then return .nil
  else if tag = .false then return .bool false
  else if tag = .true then return .bool true
  else if tag = .int then return .int (← decodeInt h)
  else if tag = .float then return .float (← decodeFloat h)
  else if tag = .shortString ∨ tag = .longString then
    return .str ((← Decoder.string?).getD "")
  else throw (.unknownConstantTag tag.byte offset)

end Constant

/-- One byte is read as a truth value: zero is false. -/
def UpvalueSource.decode : Decoder UpvalueSource := do
  let flag ← Decoder.byte
  let index ← Decoder.byte
  let kind ← Decoder.byte
  return { inStack := flag ≠ 0, index, kind }

def LineCheckpoint.decode : Decoder LineCheckpoint := do
  let pc ← Decoder.varuint
  let line ← Decoder.varuint
  return { pc, line }

/-- A name; a missing one is replaced by `anonymousName`. -/
def DebugInfo.decodeName : Decoder String := do
  return (← Decoder.string?).getD anonymousName

def LocalVariable.decode : Decoder LocalVariable := do
  let name ← DebugInfo.decodeName
  let startPc ← Decoder.varuint
  let endPc ← Decoder.varuint
  return { name, startPc, endPc }

def DebugInfo.decode : Decoder DebugInfo := do
  let lineCount ← Decoder.count
  let lineDeltas ← Decoder.slice lineCount
  let checkpoints ← Decoder.counted LineCheckpoint.decode
  let locals ← Decoder.counted LocalVariable.decode
  let upvalueNames ← Decoder.counted decodeName
  return { lineDeltas, checkpoints, locals, upvalueNames }

namespace Prototype

/-- How many levels below the entry function a function may lie. -/
def nestingLimit : Nat := 200

/-- A function with `levels` levels of functions allowed from it on. Where the source is missing, it
is that of the enclosing function. -/
def decode (h : Header) : (levels : Nat) → (enclosing : Option String) → Decoder Prototype
  | 0, _ => throw (.nestingTooDeep nestingLimit)
  | levels + 1, enclosing => do
    let stored ← Decoder.string?
    let source := stored.or enclosing
    let lineDefined ← Decoder.varuint
    let lastLineDefined ← Decoder.varuint
    let paramCount ← Decoder.byte
    let varargFlag ← Decoder.byte
    let stackSize ← Decoder.byte
    let codeCount ← Decoder.count
    let code ← Decoder.array Instruction codeCount
    let constants ← Decoder.counted (Constant.decode h)
    let upvalues ← Decoder.counted UpvalueSource.decode
    let protos ← Decoder.counted (decode h levels source)
    let debug ← DebugInfo.decode
    return { source, lineDefined, lastLineDefined, paramCount, varargFlag, stackSize
             code := code.toArray, constants := constants.toArray, upvalues, protos, debug }

end Prototype

namespace Chunk

/-- A whole chunk. A header other than the canonical one is refused before the rest is read. -/
def decoder : Decoder Chunk := do
  let header ← Header.decode
  match header.validate with
  | .error fault => throw fault
  | .ok () =>
    let upvalueCount ← Decoder.byte
    let main ← Prototype.decode header (Prototype.nestingLimit + 1) none
    return { header, upvalueCount, main }

/-- The chunk at the start of an image; bytes after it do not matter. -/
def decode (image : Bytes) : Except DecodeFault Chunk :=
  match decoder (.start image) with
  | .ok chunk _ => .ok chunk
  | .error fault _ => .error fault

/-- The chunk that takes up the whole image. -/
def decodeExact (image : Bytes) : Except DecodeFault Chunk :=
  match decoder (.start image) with
  | .ok chunk c => if c.remaining = 0 then .ok chunk else .error (.trailingBytes c.remaining)
  | .error fault _ => .error fault

end Chunk

end LuaBytecode
