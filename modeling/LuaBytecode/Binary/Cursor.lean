import LuaBytecode.Binary.Bytes
import LuaBytecode.Binary.Fault

/-! # Reading from a position

A `Decoder` reads from a cursor. When it fails, the cursor it leaves is still meaningful: a read of
a fixed number of bytes leaves it where it was, and a read in several parts leaves it after the
parts that went through.
-/

namespace LuaBytecode

/-- A place in an image: how many bytes lie before it, and the bytes from it on. -/
structure Cursor where
  position : Nat
  rest : Bytes
  deriving DecidableEq, Repr

namespace Cursor

/-- The start of an image. -/
def start (image : Bytes) : Cursor := ⟨0, image⟩

def remaining (c : Cursor) : Nat := c.rest.length

end Cursor

abbrev Decoder (α : Type) := EStateM DecodeFault Cursor α

namespace Decoder

/-- Fail because `wanted` bytes are not there. -/
def truncated {α : Type} (wanted : Nat) : Decoder α := fun c =>
  .error (.truncated c.position wanted c.remaining) c

def position : Decoder Nat := fun c => .ok c.position c

def byte : Decoder UInt8 := fun c =>
  match c.rest with
  | [] => truncated 1 c
  | b :: rest => .ok b ⟨c.position + 1, rest⟩

/-- The next `n` bytes. -/
def slice (n : Nat) : Decoder Bytes := fun c =>
  if n ≤ c.remaining then .ok (c.rest.take n) ⟨c.position + n, c.rest.drop n⟩ else truncated n c

/-- One value of a fixed-width type. -/
def fixed (α : Type) [FixedWidth α] : Decoder α := do
  let bytes ← slice (FixedWidth.width α)
  return FixedWidth.decode α bytes

/-- The largest number of bytes that can be asked for. -/
def sizeLimit : Nat := UInt64.size - 1

/-- `count` values of a fixed-width type, read in one go. -/
def array (α : Type) [FixedWidth α] (count : Nat) : Decoder (List α) :=
  let total := count * FixedWidth.width α
  if total ≤ sizeLimit then do
    let bytes ← slice total
    return FixedWidth.decodeList α count bytes
  else truncated sizeLimit

/-- Read a varuint whose groups so far give `acc`. -/
def varuintFrom (acc : UInt64) (position : Nat) : Bytes → EStateM.Result DecodeFault Cursor UInt64
  | [] => truncated 1 ⟨position, []⟩
  | b :: rest =>
    let acc := acc * 128 + (b % 128).toUInt64
    if b < 128 then varuintFrom acc (position + 1) rest else .ok acc ⟨position + 1, rest⟩

/-- A number in groups of seven bits, most significant group first; the last byte is the one with
its high bit set. Groups beyond 64 bits push the first ones out. -/
def varuint : Decoder UInt64 := fun c => varuintFrom 0 c.position c.rest

/-- A number of elements that are still to come. An element takes at least one byte, so a count
above the number of bytes left is refused at once. -/
def count : Decoder Nat := do
  let n := (← varuint).toNat
  fun c => if n ≤ c.remaining then .ok n c else truncated n c

/-- UTF-8 text of `n` bytes. -/
def text (n : Nat) : Decoder String := do
  let offset ← position
  let bytes ← slice n
  match Bytes.toText? bytes with
  | some s => return s
  | none => throw (.invalidUtf8 offset)

/-- Text after its size, which counts one more than the bytes; sizes 0 and 1 mean that there is no
text. -/
def string? : Decoder (Option String) := do
  let size := (← varuint).toNat
  if size ≤ 1 then return none
  else return some (← text (size - 1))

/-- The same decoder `n` times over. -/
def times {α : Type} : Nat → Decoder α → Decoder (List α)
  | 0, _ => return []
  | n + 1, d => do
    let head ← d
    let tail ← times n d
    return head :: tail

/-- A count, then as many elements. -/
def counted {α : Type} (d : Decoder α) : Decoder (List α) := do
  let n ← count
  times n d

end Decoder

end LuaBytecode
