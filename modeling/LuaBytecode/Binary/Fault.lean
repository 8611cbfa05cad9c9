import LuaBytecode.Decimal.Layout
import LuaBytecode.Text.Hex

/-! # Why a binary image is refused -/

namespace LuaBytecode

/-- The checked parts of a chunk header, in the order in which they are stored and checked. -/
inductive HeaderField where
  | magic
  | version
  | format
  | dataCheck
  | instructionSize
  | integerSize
  | floatSize
  | sanityInteger
  | sanityFloat
  deriving DecidableEq, Repr

def HeaderField.name : HeaderField → String
  | .magic => "magic"
  | .version => "version"
  | .format => "format"
  | .dataCheck => "data check"
  | .instructionSize => "instruction size"
  | .integerSize => "integer size"
  | .floatSize => "float size"
  | .sanityInteger => "sanity integer"
  | .sanityFloat => "sanity float"

/-- What a header field holds: a word, or the test number. -/
inductive FieldValue where
  | word (n : Nat)
  | number (f : Binary64)
  deriving DecidableEq, Repr

/-- The test number is written without an exponent, and whole numbers without a point. -/
def FieldValue.layout : Decimal.Layout where
  leastPlain := none
  greatestPlain := none
  wholePoint := false
  exponentPlus := false
  tie := .up
  nan := "NaN"
  infinity := "inf"

def FieldValue.text : FieldValue → String
  | .word n => Text.hex n
  | .number f => layout.text f

/-- The reasons for which decoding stops. -/
inductive DecodeFault where
  | truncated (offset wanted available : Nat)
  | badHeader (field : HeaderField) (expected found : FieldValue)
  | unknownConstantTag (tag : UInt8) (offset : Nat)
  | invalidUtf8 (offset : Nat)
  | nestingTooDeep (limit : Nat)
  | trailingBytes (remaining : Nat)
  deriving DecidableEq, Repr

def DecodeFault.message : DecodeFault → String
  | .truncated offset wanted available =>
    s!"truncated binary chunk: wanted {wanted} bytes at offset {offset}, {available} available"
  | .badHeader field expected found =>
    s!"unsupported or corrupt chunk: {field.name} mismatch " ++
    s!"(expected {expected.text}, found {found.text})"
  | .unknownConstantTag tag offset =>
    s!"unknown constant type tag {Text.hexWide 2 tag.toNat} at offset {offset}"
  | .invalidUtf8 offset => s!"invalid UTF-8 in string at offset {offset}"
  | .nestingTooDeep limit => s!"function nesting deeper than {limit} levels"
  | .trailingBytes remaining => s!"{remaining} trailing bytes after chunk"

end LuaBytecode
