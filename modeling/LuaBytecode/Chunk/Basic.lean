import LuaBytecode.Header
import LuaBytecode.Prototype

/-! # Chunks -/

namespace LuaBytecode

/-- A compiled unit: a header, the number of upvalues its entry function expects, and the entry
function. -/
structure Chunk where
  header : Header
  upvalueCount : UInt8
  main : Prototype

/-- A chunk with the canonical header around an entry function. -/
def Chunk.ofMain (main : Prototype) : Chunk where
  header := .canonical
  upvalueCount := UInt8.ofNat main.upvalues.length
  main := main

/-- The kinds of constant in a chunk: the low four bits of a tag give the base kind, the high four
bits its variant. -/
structure ConstantTag where
  byte : UInt8
  deriving DecidableEq, Repr

namespace ConstantTag

def base (t : ConstantTag) : Nat := t.byte.toNat % 16

def variant (t : ConstantTag) : Nat := t.byte.toNat / 16

def nil : ConstantTag := ⟨0x00⟩

def false : ConstantTag := ⟨0x01⟩

def true : ConstantTag := ⟨0x11⟩

def int : ConstantTag := ⟨0x03⟩

def float : ConstantTag := ⟨0x13⟩

def shortString : ConstantTag := ⟨0x04⟩

def longString : ConstantTag := ⟨0x14⟩

end ConstantTag

end LuaBytecode
