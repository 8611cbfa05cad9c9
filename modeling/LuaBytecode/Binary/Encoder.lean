import LuaBytecode.Binary.Bytes

/-! # Writing numbers and text -/

namespace LuaBytecode.Encoder

/-- The groups of a number above its last seven bits, most significant first. -/
def varuintHigh (n : Nat) : Bytes :=
  if n = 0 then [] else varuintHigh (n / 128) ++ [UInt8.ofNat (n % 128)]
termination_by n
decreasing_by omega

/-- A number in groups of seven bits, most significant first, as few as possible; the last byte has
its high bit set. -/
def varuint (v : UInt64) : Bytes :=
  varuintHigh (v.toNat / 128) ++ [UInt8.ofNat (v.toNat % 128 + 128)]

/-- The number of elements of a list that follows. -/
def count (n : Nat) : Bytes :=
  varuint (UInt64.ofNat n)

/-- Text after its size plus one; no text has size 0. -/
def string? : Option String → Bytes
  | none => varuint 0
  | some s => varuint (UInt64.ofNat (s.utf8ByteSize + 1)) ++ Bytes.ofText s

/-- A count, then the elements. -/
def counted {α : Type} (write : α → Bytes) (xs : List α) : Bytes :=
  count xs.length ++ xs.flatMap write

end LuaBytecode.Encoder
