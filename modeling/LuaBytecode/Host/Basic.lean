import LuaBytecode.Table

/-! # Functions of the host -/

namespace LuaBytecode

/-- The answer of a host function: its results or a message of failure, the tables as it leaves
them, and the lines it prints. -/
structure HostReply where
  outcome : Except String (List Value)
  tables : Array Table
  printed : List String := []

/-- The functions of the host, by name. They see their arguments and the tables. -/
abbrev Host := String → List Value → Array Table → HostReply

end LuaBytecode
