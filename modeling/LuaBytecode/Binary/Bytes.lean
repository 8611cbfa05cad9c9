import LuaBytecode.Binary64

/-! # Bytes and fixed-width words

A word of `width` bytes is stored with its least significant byte first. Every fixed-width type is
read and written through its value as a natural number below `256 ^ width`.
-/

namespace LuaBytecode

abbrev Bytes := List UInt8

namespace Bytes

/-- The `width` bytes of a number, least significant first; higher digits are dropped. -/
def ofNat : Nat → Nat → Bytes
  | 0, _ => []
  | width + 1, n => UInt8.ofNat (n % 256) :: ofNat width (n / 256)

/-- The number that the bytes spell, least significant first. -/
def toNat : Bytes → Nat
  | [] => 0
  | b :: rest => b.toNat + 256 * toNat rest

/-- The text that the bytes encode, if they are valid UTF-8. -/
def toText? (bytes : Bytes) : Option String :=
  String.fromUTF8? ⟨bytes.toArray⟩

/-- The UTF-8 bytes of a text. -/
def ofText (s : String) : Bytes :=
  s.toByteArray.data.toList

end Bytes

/-- Types whose values are stored in a fixed number of bytes: a bijection with the numbers below
`256 ^ width`. -/
class FixedWidth (α : Type) where
  width : Nat
  ofNat : Nat → α
  toNat : α → Nat
  toNat_lt : ∀ a, toNat a < 1 <<< (8 * width)
  ofNat_toNat : ∀ a, ofNat (toNat a) = a
  toNat_ofNat : ∀ n, n < 1 <<< (8 * width) → toNat (ofNat n) = n

namespace FixedWidth

/-- Read a value from its bytes. -/
def decode (α : Type) [FixedWidth α] (bytes : Bytes) : α :=
  ofNat bytes.toNat

/-- The bytes of a value. -/
def encode {α : Type} [FixedWidth α] (a : α) : Bytes :=
  Bytes.ofNat (width α) (toNat a)

/-- Read `count` values from consecutive bytes. -/
def decodeList (α : Type) [FixedWidth α] : Nat → Bytes → List α
  | 0, _ => []
  | count + 1, bytes =>
    decode α (bytes.take (width α)) :: decodeList α count (bytes.drop (width α))

instance : FixedWidth UInt8 where
  width := 1
  ofNat := UInt8.ofNat
  toNat := UInt8.toNat
  toNat_lt a := a.toNat_lt
  ofNat_toNat a := by simp
  toNat_ofNat n h := by simpa using h

instance : FixedWidth UInt16 where
  width := 2
  ofNat := UInt16.ofNat
  toNat := UInt16.toNat
  toNat_lt a := a.toNat_lt
  ofNat_toNat a := by simp
  toNat_ofNat n h := by simpa using h

instance : FixedWidth UInt32 where
  width := 4
  ofNat := UInt32.ofNat
  toNat := UInt32.toNat
  toNat_lt a := a.toNat_lt
  ofNat_toNat a := by simp
  toNat_ofNat n h := by simpa using h

instance : FixedWidth UInt64 where
  width := 8
  ofNat := UInt64.ofNat
  toNat := UInt64.toNat
  toNat_lt a := a.toNat_lt
  ofNat_toNat a := by simp
  toNat_ofNat n h := by simpa using h

instance : FixedWidth Int32 where
  width := 4
  ofNat n := (UInt32.ofNat n).toInt32
  toNat a := a.toUInt32.toNat
  toNat_lt a := a.toUInt32.toNat_lt
  ofNat_toNat a := by simp
  toNat_ofNat n h := by simpa using h

instance : FixedWidth Int64 where
  width := 8
  ofNat n := (UInt64.ofNat n).toInt64
  toNat a := a.toUInt64.toNat
  toNat_lt a := a.toUInt64.toNat_lt
  ofNat_toNat a := by simp
  toNat_ofNat n h := by simpa using h

instance : FixedWidth Binary32 where
  width := 4
  ofNat n := ⟨UInt32.ofNat n⟩
  toNat a := a.bits.toNat
  toNat_lt a := a.bits.toNat_lt
  ofNat_toNat a := by simp
  toNat_ofNat n h := by simpa using h

instance : FixedWidth Binary64 where
  width := 8
  ofNat n := ⟨UInt64.ofNat n⟩
  toNat a := a.bits.toNat
  toNat_lt a := a.bits.toNat_lt
  ofNat_toNat a := by simp
  toNat_ofNat n h := by simpa using h

end FixedWidth

end LuaBytecode
