/-! # Hexadecimal text -/

namespace LuaBytecode.Text

/-- Lower-case hexadecimal digits, without leading zeros. -/
def hexDigits (n : Nat) : List Char :=
  Nat.toDigits 16 n

/-- Hexadecimal digits after `0x`. -/
def hex (n : Nat) : String :=
  "0x" ++ String.ofList (hexDigits n)

/-- Hexadecimal digits after `0x`, filled with zeros up to `width` digits. -/
def hexWide (width n : Nat) : String :=
  let ds := hexDigits n
  "0x" ++ String.ofList (List.replicate (width - ds.length) '0' ++ ds)

end LuaBytecode.Text
