import LuaBytecode.Binary.Cursor

/-! # Chunk headers

A chunk opens with 31 bytes that say which format it is in. Only one content is accepted,
`Header.canonical`; any other is refused with the first field that differs.
-/

namespace LuaBytecode

structure Header where
  magic : UInt32
  /-- Version byte, format byte and six check bytes. -/
  version : UInt64
  instructionSize : UInt8
  integerSize : UInt8
  floatSize : UInt8
  sanityInteger : Int64
  sanityFloat : Binary64
  deriving DecidableEq, Repr

namespace Header

/-- The header of a chunk for version 5.4 with 64-bit numbers: the magic bytes are escape and
`Lua`, the check bytes survive no text conversion, and the two test numbers are 0x5678 and 370.5. -/
def canonical : Header where
  magic := 0x61754c1b
  version := 0x0a1a0a0d93190054
  instructionSize := 4
  integerSize := 8
  floatSize := 8
  sanityInteger := 0x5678
  sanityFloat := ⟨0x4077280000000000⟩

def versionNumber (h : Header) : Nat := h.version.toNat % 256

def format (h : Header) : Nat := h.version.toNat / 256 % 256

/-- The six check bytes as one number. -/
def dataCheck (h : Header) : Nat := h.version.toNat >>> 16

/-- What the header holds in a field. -/
def get (h : Header) : HeaderField → FieldValue
  | .magic => .word h.magic.toNat
  | .version => .word h.versionNumber
  | .format => .word h.format
  | .dataCheck => .word h.dataCheck
  | .instructionSize => .word h.instructionSize.toNat
  | .integerSize => .word h.integerSize.toNat
  | .floatSize => .word h.floatSize.toNat
  | .sanityInteger => .word h.sanityInteger.toUInt64.toNat
  | .sanityFloat => .number h.sanityFloat

/-- The fields in the order in which they are checked. -/
def fields : List HeaderField :=
  [.magic, .version, .format, .dataCheck, .instructionSize, .integerSize, .floatSize,
   .sanityInteger, .sanityFloat]

/-- The first field that is not as it should be. -/
def mismatch? (h : Header) : Option HeaderField :=
  fields.find? fun field => h.get field ≠ canonical.get field

/-- Accept the canonical header only. -/
def validate (h : Header) : Except DecodeFault Unit :=
  match h.mismatch? with
  | none => .ok ()
  | some field => .error (.badHeader field (canonical.get field) (h.get field))

def decode : Decoder Header := do
  let magic ← Decoder.fixed UInt32
  let version ← Decoder.fixed UInt64
  let instructionSize ← Decoder.byte
  let integerSize ← Decoder.byte
  let floatSize ← Decoder.byte
  let sanityInteger ← Decoder.fixed Int64
  let sanityFloat ← Decoder.fixed Binary64
  return { magic, version, instructionSize, integerSize, floatSize, sanityInteger, sanityFloat }

def encode (h : Header) : Bytes :=
  FixedWidth.encode h.magic ++ FixedWidth.encode h.version
    ++ [h.instructionSize, h.integerSize, h.floatSize]
    ++ FixedWidth.encode h.sanityInteger ++ FixedWidth.encode h.sanityFloat

end Header

end LuaBytecode
