import LuaBytecode.Binary64

/-! # JSON values -/

namespace LuaBytecode

/-- A JSON value. The fields of an object are in order, and a name may occur more than once until
`normalize` has been applied. -/
inductive Json where
  | null
  | bool (b : Bool)
  | int (n : Int)
  | float (f : Binary64)
  | str (s : String)
  | arr (items : List Json)
  | obj (fields : List (String × Json))
  deriving Inhabited, Repr

namespace Json

/-- What a JSON value is called in messages. -/
def kindName : Json → String
  | .null => "null"
  | .bool _ => "boolean"
  | .int _ | .float _ => "number"
  | .str _ => "string"
  | .arr _ => "array"
  | .obj _ => "object"

/-- Set a field in a list of fields that is sorted by name and has no name twice. -/
def insertField (name : String) (value : Json) : List (String × Json) → List (String × Json)
  | [] => [(name, value)]
  | e :: rest =>
    match compare name e.1 with
    | .lt => (name, value) :: e :: rest
    | .eq => (name, value) :: rest
    | .gt => e :: insertField name value rest

/-- The fields sorted by name; of several with one name the last counts. -/
def sortFields (fields : List (String × Json)) : List (String × Json) :=
  fields.foldl (fun sorted e => insertField e.1 e.2 sorted) []

mutual

/-- Sort the fields of all objects inside a value. -/
def normalize : Json → Json
  | .arr items => .arr (normalizeItems items)
  | .obj fields => .obj (sortFields (normalizeFields fields))
  | scalar => scalar

def normalizeItems : List Json → List Json
  | [] => []
  | item :: rest => normalize item :: normalizeItems rest

def normalizeFields : List (String × Json) → List (String × Json)
  | [] => []
  | (name, value) :: rest => (name, normalize value) :: normalizeFields rest

end

end Json

end LuaBytecode
