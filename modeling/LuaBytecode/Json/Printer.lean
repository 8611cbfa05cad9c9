import LuaBytecode.Decimal.Layout
import LuaBytecode.Json.Basic
import LuaBytecode.Text.Hex

/-! # JSON text

Values are written without blanks. Floats always show a point or an exponent, so that they are read
back as floats.
-/

namespace LuaBytecode.Json

/-- From `1e+16` on and below `1e-5` floats have an exponent, whose sign is always written. -/
def layout : Decimal.Layout where
  leastPlain := some (-5)
  greatestPlain := some 15
  wholePoint := true
  exponentPlus := true
  tie := .even
  nan := "null"
  infinity := "null"

/-- A character inside quotes: the quote, the backslash and control characters are escaped. -/
def escapedChar (c : Char) : List Char :=
  if c = '"' then ['\\', '"']
  else if c = '\\' then ['\\', '\\']
  else if c = '\x08' then ['\\', 'b']
  else if c = '\t' then ['\\', 't']
  else if c = '\n' then ['\\', 'n']
  else if c = '\x0c' then ['\\', 'f']
  else if c = '\r' then ['\\', 'r']
  else if c.toNat < 32 then
    let ds := Text.hexDigits c.toNat
    ['\\', 'u'] ++ List.replicate (4 - ds.length) '0' ++ ds
  else [c]

def quotedChars (s : String) : List Char :=
  '"' :: (s.toList.flatMap escapedChar ++ ['"'])

/-- The parts with commas between them. -/
def separated : List (List Char) → List Char
  | [] => []
  | [part] => part
  | part :: rest => part ++ ',' :: separated rest

mutual

def chars : Json → List Char
  | .null => "null".toList
  | .bool b => (if b then "true" else "false").toList
  | .int n => (toString n).toList
  | .float f => (if f.isFinite then layout.text f else "null").toList
  | .str s => quotedChars s
  | .arr items => '[' :: (separated (itemChars items) ++ [']'])
  | .obj fields => '\x7b' :: (separated (fieldChars fields) ++ ['\x7d'])

def itemChars : List Json → List (List Char)
  | [] => []
  | item :: rest => item.chars :: itemChars rest

def fieldChars : List (String × Json) → List (List Char)
  | [] => []
  | (name, value) :: rest => (quotedChars name ++ ':' :: value.chars) :: fieldChars rest

end

/-- The text of a value. -/
def text (j : Json) : String := String.ofList j.chars

end LuaBytecode.Json
