import LuaBytecode.Json.Numeral

/-! # Reading JSON text

Strict JSON: no comments, no trailing commas, no lone surrogates, and nothing but blanks around the
value. Arrays and objects may nest 127 deep. The readers take the characters left and return what
they read with the rest; recursion is on a number of steps that the length of the text bounds.
-/

namespace LuaBytecode.Json

def isBlank (c : Char) : Bool := c = ' ' || c = '\n' || c = '\t' || c = '\r'

def skipBlanks (cs : List Char) : List Char := cs.dropWhile isBlank

/-! ## Strings -/

def hexValue? (c : Char) : Option Nat :=
  if '0' ≤ c ∧ c ≤ '9' then some (c.toNat - '0'.toNat)
  else if 'a' ≤ c ∧ c ≤ 'f' then some (c.toNat - 'a'.toNat + 10)
  else if 'A' ≤ c ∧ c ≤ 'F' then some (c.toNat - 'A'.toNat + 10)
  else none

/-- A code unit of four hexadecimal digits. -/
def readUnit : List Char → Option (Nat × List Char)
  | a :: b :: c :: d :: rest => do
    let a ← hexValue? a
    let b ← hexValue? b
    let c ← hexValue? c
    let d ← hexValue? d
    return (((a * 16 + b) * 16 + c) * 16 + d, rest)
  | _ => none

def isLeadingSurrogate (unit : Nat) : Bool := 0xd800 ≤ unit && unit < 0xdc00

def isTrailingSurrogate (unit : Nat) : Bool := 0xdc00 ≤ unit && unit < 0xe000

/-- The character of a numeric escape; one beyond 16 bits is written as two units. -/
def readNumericEscape (cs : List Char) : Option (Char × List Char) := do
  let (unit, rest) ← readUnit cs
  if isLeadingSurrogate unit then
    match rest with
    | '\\' :: 'u' :: rest => do
      let (trail, rest) ← readUnit rest
      if isTrailingSurrogate trail then
        return (Char.ofNat (0x10000 + (unit - 0xd800) * 0x400 + (trail - 0xdc00)), rest)
      else none
    | _ => none
  else if isTrailingSurrogate unit then none
  else return (Char.ofNat unit, rest)

/-- What follows a backslash. -/
def readEscape : List Char → Option (Char × List Char)
  | '"' :: rest => some ('"', rest)
  | '\\' :: rest => some ('\\', rest)
  | '/' :: rest => some ('/', rest)
  | 'b' :: rest => some ('\x08', rest)
  | 'f' :: rest => some ('\x0c', rest)
  | 'n' :: rest => some ('\n', rest)
  | 'r' :: rest => some ('\r', rest)
  | 't' :: rest => some ('\t', rest)
  | 'u' :: rest => readNumericEscape rest
  | _ => none

/-- The characters up to the closing quote. -/
def readStringChars : (steps : Nat) → List Char → Option (List Char × List Char)
  | 0, _ => none
  | _ + 1, '"' :: rest => some ([], rest)
  | steps + 1, '\\' :: rest => do
    let (c, rest) ← readEscape rest
    let (cs, rest) ← readStringChars steps rest
    return (c :: cs, rest)
  | steps + 1, c :: rest =>
    if c.toNat < 32 then none
    else do
      let (cs, rest) ← readStringChars steps rest
      return (c :: cs, rest)
  | _ + 1, [] => none

/-- A string whose opening quote has been read. -/
def readString (cs : List Char) : Option (String × List Char) := do
  let (s, rest) ← readStringChars (cs.length + 1) cs
  return (String.ofList s, rest)

/-! ## Numbers -/

def isDigit (c : Char) : Bool := '0' ≤ c && c ≤ '9'

/-- The digits at the front. -/
def readDigits (cs : List Char) : List Nat × List Char :=
  ((cs.takeWhile isDigit).map fun c => c.toNat - '0'.toNat, cs.dropWhile isDigit)

/-- The digits before the point; a zero stands alone. -/
def readWhole (cs : List Char) : Option (List Nat × List Char) :=
  match readDigits cs with
  | ([], _) => none
  | (0 :: _ :: _, _) => none
  | (ds, rest) => some (ds, rest)

/-- The digits behind the point, if there is one; there must be at least one. -/
def readFraction : List Char → Option (Option (List Nat) × List Char)
  | '.' :: cs =>
    match readDigits cs with
    | ([], _) => none
    | (ds, rest) => some (some ds, rest)
  | cs => some (none, cs)

/-- The digits of an exponent, whose sign has been read. -/
def readExponentDigits (down : Bool) (cs : List Char) :
    Option (Option (Bool × List Nat) × List Char) :=
  match readDigits cs with
  | ([], _) => none
  | (ds, rest) => some (some (down, ds), rest)

/-- The sign and the digits of an exponent. -/
def readSignedExponent : List Char → Option (Option (Bool × List Nat) × List Char)
  | '+' :: cs => readExponentDigits false cs
  | '-' :: cs => readExponentDigits true cs
  | cs => readExponentDigits false cs

/-- An exponent, if there is one. -/
def readExponent : List Char → Option (Option (Bool × List Nat) × List Char)
  | 'e' :: cs => readSignedExponent cs
  | 'E' :: cs => readSignedExponent cs
  | cs => some (none, cs)

/-- A number whose sign has been read. -/
def readNumber (negative : Bool) (cs : List Char) : Option (Json × List Char) := do
  let (whole, rest) ← readWhole cs
  let (fraction, rest) ← readFraction rest
  let (exponent, rest) ← readExponent rest
  let value ← Numeral.value? { negative, whole, fraction, exponent }
  return (value, rest)

/-! ## Values -/

/-- A fixed word. -/
def readWord (word : String) (value : Json) (cs : List Char) : Option (Json × List Char) :=
  if word.toList.isPrefixOf cs then some (value, cs.drop word.length) else none

/-- How deep arrays and objects may nest. -/
def readerLimit : Nat := 127

mutual

/-- A value, with blanks before it; `levels` more arrays and objects may be opened. -/
def readValue : (steps levels : Nat) → List Char → Option (Json × List Char)
  | 0, _, _ => none
  | steps + 1, levels, cs =>
    match skipBlanks cs with
    | 'n' :: rest => readWord "ull" .null rest
    | 't' :: rest => readWord "rue" (.bool true) rest
    | 'f' :: rest => readWord "alse" (.bool false) rest
    | '"' :: rest => do
      let (s, rest) ← readString rest
      return (.str s, rest)
    | '-' :: rest => readNumber true rest
    | '[' :: rest =>
      match levels with
      | 0 => none
      | levels + 1 =>
        match skipBlanks rest with
        | ']' :: rest => some (.arr [], rest)
        | rest => do
          let (items, rest) ← readItems steps levels rest
          return (.arr items, rest)
    | '\x7b' :: rest =>
      match levels with
      | 0 => none
      | levels + 1 =>
        match skipBlanks rest with
        | '\x7d' :: rest => some (.obj [], rest)
        | rest => do
          let (fields, rest) ← readFields steps levels rest
          return (.obj (sortFields fields), rest)
    | rest => readNumber false rest

/-- The items of an array up to its end; there is at least one. -/
def readItems : (steps levels : Nat) → List Char → Option (List Json × List Char)
  | 0, _, _ => none
  | steps + 1, levels, cs => do
    let (item, rest) ← readValue steps levels cs
    match skipBlanks rest with
    | ']' :: rest => return ([item], rest)
    | ',' :: rest => do
      let (items, rest) ← readItems steps levels rest
      return (item :: items, rest)
    | _ => none

/-- The fields of an object up to its end; there is at least one. -/
def readFields : (steps levels : Nat) → List Char → Option (List (String × Json) × List Char)
  | 0, _, _ => none
  | steps + 1, levels, cs =>
    match skipBlanks cs with
    | '"' :: rest => do
      let (name, rest) ← readString rest
      match skipBlanks rest with
      | ':' :: rest => do
        let (value, rest) ← readValue steps levels rest
        match skipBlanks rest with
        | '\x7d' :: rest => return ([(name, value)], rest)
        | ',' :: rest => do
          let (fields, rest) ← readFields steps levels rest
          return ((name, value) :: fields, rest)
        | _ => none
      | _ => none
    | _ => none

end

/-- The value that a text denotes, if it is JSON. -/
def parse? (text : String) : Option Json :=
  let cs := text.toList
  match readValue (2 * cs.length + 2) readerLimit cs with
  | some (value, rest) => if (skipBlanks rest).isEmpty then some value else none
  | none => none

end LuaBytecode.Json
