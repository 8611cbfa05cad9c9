import LuaBytecode.Heap
import LuaBytecode.Json.Printer
import LuaBytecode.Json.Reader

/-! # Tables as JSON

A table whose keys are the integers from 1 to its size is an array, any other table an object.
Values that can be called are left out. Tables may nest 128 deep below the one that is converted, in
either direction; that bound also ends the conversion of a table that contains itself.
-/

namespace LuaBytecode

/-- Why a conversion fails. -/
inductive JsonFault where
  | notATable (found : String)
  | tooDeep (limit : Nat)
  /-- Tables nest too deep to be written. -/
  | unwritable (limit : Nat)
  /-- The text is not JSON. -/
  | malformed
  deriving DecidableEq, Repr

def JsonFault.message : JsonFault → String
  | .notATable found =>
    s!"expected a JSON array, object or null at the top level, found {found}"
  | .tooDeep limit => s!"table nesting exceeds {limit} levels"
  | .unwritable limit => s!"table nesting exceeds {limit} levels"
  | .malformed => "malformed JSON text"

namespace Table

/-- How deep tables may nest below the one that is converted. -/
def nestingLimit : Nat := 128

/-- The entries whose value is not callable. -/
def dataEntries (t : Table) : List (Value × Value) :=
  t.entries.filter fun e => !e.2.isCallable

/-- Whether a key is one of the integers from 1 to `count`. -/
def isPosition (count : Nat) : Value → Bool
  | .int i => 1 ≤ i.toInt && i.toInt ≤ count
  | _ => false

/-- The values in the order of their keys, if there are any and the keys are 1, 2 and so on up to
their number, in whatever order they came in. -/
def sequenceValues? (entries : List (Value × Value)) : Option (List Value) :=
  if entries.isEmpty || !entries.all fun e => isPosition entries.length e.1 then none
  else (List.range entries.length).mapM fun i => entries.lookup (.int (Int64.ofNat (i + 1)))

/-! ## To JSON -/

/-- A value as JSON, given how to convert the tables in it. Floats that are not finite, like the
callables that have been left out before, have no form of their own. -/
def valueToJson (convert : TableRef → Except JsonFault Json) : Value → Except JsonFault Json
  | .nil => .ok .null
  | .bool b => .ok (.bool b)
  | .int i => .ok (.int i.toInt)
  | .float f => .ok (if f.isFinite then .float f else .null)
  | .str s => .ok (.str s)
  | .table ref => convert ref
  | .closure _ | .host _ => .ok .null

/-- A table as JSON with its fields in order of insertion; `levels` bounds the depth of nesting, the
table itself included. -/
def toJsonWithin (h : Heap) : (levels : Nat) → Table → Except JsonFault Json
  | 0, _ => .error (.unwritable nestingLimit)
  | levels + 1, t => do
    let convert := valueToJson fun ref => toJsonWithin h levels (h.table ref)
    let entries := t.dataEntries
    match sequenceValues? entries with
    | some values => return .arr (← values.mapM convert)
    | none =>
      return .obj (← entries.mapM fun e => do
        let value ← convert e.2
        return (e.1.text, value))

/-- A table as JSON, its fields in order of insertion and possibly with one name several times. -/
def toJsonOrdered (h : Heap) (t : Table) : Except JsonFault Json :=
  toJsonWithin h (nestingLimit + 1) t

/-- A table as JSON, its fields sorted by name; of several with one name the last counts. -/
def toJson (h : Heap) (t : Table) : Except JsonFault Json :=
  (t.toJsonOrdered h).map Json.normalize

/-- A table as JSON text, its fields in order of insertion. -/
def toJsonText (h : Heap) (t : Table) : Except JsonFault String :=
  (t.toJsonOrdered h).map Json.text

/-! ## Leaving out callables -/

/-- A table of the heap. -/
def fetch (ref : TableRef) : EStateM JsonFault Heap Table := fun h => .ok (h.table ref) h

/-- Put a table into the heap. -/
def allocate (t : Table) : EStateM JsonFault Heap Value := fun h =>
  let (ref, h) := h.newTable t
  .ok (.table ref) h

/-- A copy of a table without callables, in which nested tables are copies too. -/
def stripWithin : (levels : Nat) → Table → EStateM JsonFault Heap Table
  | 0, _ => throw (.tooDeep nestingLimit)
  | levels + 1, t => do
    let entries ← t.dataEntries.mapM fun e => do
      match e.2 with
      | .table ref => do
        let inner ← fetch ref
        let copy ← stripWithin levels inner
        return (e.1, ← allocate copy)
      | v => return (e.1, v)
    return ofEntries entries

def strip (t : Table) : EStateM JsonFault Heap Table := stripWithin (nestingLimit + 1) t

/-! ## From JSON -/

/-- An integer beyond 64 bits becomes the nearest float. -/
def intFromJson (n : Int) : Value :=
  if Int64.minValue.toInt ≤ n ∧ n ≤ Int64.maxValue.toInt then .int (Int64.ofInt n)
  else .float (.ofInt n)

/-- A JSON value as a value; `levels` arrays and objects may be opened. -/
def valueFromJson : (levels : Nat) → Json → EStateM JsonFault Heap Value
  | _, .null => return .nil
  | _, .bool b => return .bool b
  | _, .int n => return intFromJson n
  | _, .float f => return .float f
  | _, .str s => return .str s
  | 0, .arr _ => throw (.tooDeep nestingLimit)
  | 0, .obj _ => throw (.tooDeep nestingLimit)
  | levels + 1, .arr items => do
    allocate (ofValues (← items.mapM (valueFromJson levels)))
  | levels + 1, .obj fields => do
    allocate (ofEntries (← fields.mapM fun e => do
      let v ← valueFromJson levels e.2
      return (Value.str e.1, v)))

/-- The table of a JSON value: null is the empty table, the items of an array get the keys from 1
on, and the fields of an object their names. -/
def fromJson : Json → EStateM JsonFault Heap Table
  | .null => return empty
  | .arr items => do
    return ofValues (← items.mapM (valueFromJson nestingLimit))
  | .obj fields => do
    return ofEntries (← fields.mapM fun e => do
      let v ← valueFromJson nestingLimit e.2
      return (Value.str e.1, v))
  | other => throw (.notATable other.kindName)

/-- The table of a JSON text. -/
def fromJsonText (text : String) : EStateM JsonFault Heap Table :=
  match Json.parse? text with
  | some j => fromJson j
  | none => throw .malformed

end Table

end LuaBytecode
