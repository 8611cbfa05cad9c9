import LuaBytecode.Text.Combining
import LuaBytecode.Text.Hex
import LuaBytecode.Text.Invisible

/-! # Quoted text

Text between double quotes, on one line and with every character visible: the quote, the backslash
and the usual control characters have short escapes, and a character that would not show, or would
merge with the one before, is written as its number.
-/

namespace LuaBytecode.Text

/-- The character as its number in braces. -/
def numericEscape (c : Char) : List Char :=
  ['\\', 'u', '\x7b'] ++ hexDigits c.toNat ++ ['\x7d']

def quotedChar (c : Char) : List Char :=
  if c = '\x00' then ['\\', '0']
  else if c = '\t' then ['\\', 't']
  else if c = '\r' then ['\\', 'r']
  else if c = '\n' then ['\\', 'n']
  else if c = '"' then ['\\', '"']
  else if c = '\\' then ['\\', '\\']
  else if isCombining c || isInvisible c then numericEscape c
  else [c]

def quoted (s : String) : String :=
  String.ofList ('"' :: (s.toList.flatMap quotedChar ++ ['"']))

end LuaBytecode.Text
