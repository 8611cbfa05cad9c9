import LuaBytecode.Constant
import LuaBytecode.Instruction

/-! # Function prototypes

A prototype is one compiled function: its code, the constants and nested functions the code refers
to, and data that relates the code to the source text.
-/

namespace LuaBytecode

/-- Where a new closure finds one of its upvalues in the function that creates it: among the
registers when `inStack` holds, otherwise among the creator's own upvalues. -/
structure UpvalueSource where
  inStack : Bool
  index : UInt8
  kind : UInt8
  deriving DecidableEq, Repr

/-- A local variable and the range of code, from `startPc` up to `endPc`, where it is alive. -/
structure LocalVariable where
  name : String
  startPc : UInt64
  endPc : UInt64
  deriving DecidableEq, Repr

/-- An instruction whose line is stored in full. -/
structure LineCheckpoint where
  pc : UInt64
  line : UInt64
  deriving DecidableEq, Repr

structure DebugInfo where
  /-- For each instruction, the signed distance of its line from the line before. -/
  lineDeltas : List UInt8 := []
  checkpoints : List LineCheckpoint := []
  locals : List LocalVariable := []
  upvalueNames : List String := []
  deriving DecidableEq, Repr

/-- The name given to locals and upvalues whose own name is missing. -/
def anonymousName : String := "__var__"

structure Prototype where
  source : Option String := none
  lineDefined : UInt64 := 0
  lastLineDefined : UInt64 := 0
  paramCount : UInt8 := 0
  varargFlag : UInt8 := 0
  /-- Number of registers of an activation. -/
  stackSize : UInt8 := 2
  code : Array Instruction := #[]
  constants : Array Constant := #[]
  upvalues : List UpvalueSource := []
  protos : List Prototype := []
  debug : DebugInfo := {}
  deriving Inhabited

namespace DebugInfo

/-- Name of the local variable that lives in register `register` at instruction `pc`: variables
alive there take the registers in order. The list is sorted by start, so the search ends at the
first variable that starts later. -/
def localName? (d : DebugInfo) (register pc : Nat) : Option String :=
  let alive := (d.locals.takeWhile (·.startPc.toNat ≤ pc)).filter (pc < ·.endPc.toNat)
  alive[register]?.map (·.name)

def upvalueName? (d : DebugInfo) (index : Nat) : Option String :=
  d.upvalueNames[index]?

end DebugInfo

namespace Prototype

def sourceName (p : Prototype) : String :=
  p.source.getD "<unnamed>"

/-- A line delta as a signed number. -/
def delta (b : UInt8) : Int64 := b.toInt8.toInt64

/-- The last checkpoint of the leading run of checkpoints that lie at or before `pc`. -/
def checkpointBefore? (p : Prototype) (pc : Nat) : Option LineCheckpoint :=
  (p.debug.checkpoints.takeWhile (·.pc.toNat ≤ pc)).getLast?

/-- Where counting starts for the line of the instruction at `pc`: a line, and the first delta to
add to it. It is the nearest checkpoint before, or, where there is none, the line of the function's
definition. -/
def lineBase (p : Prototype) (pc : Nat) : Int64 × Nat :=
  match p.checkpointBefore? pc with
  | some c => (c.line.toInt64, c.pc.toNat + 1)
  | none => (p.lineDefined.toInt64, 0)

/-- The deltas that lead from there to the line of the instruction at `pc`. -/
def deltasTo (p : Prototype) (pc : Nat) : List UInt8 :=
  (p.debug.lineDeltas.take (pc + 1)).drop (p.lineBase pc).2

/-- Add deltas to a line. Lines are counted in 64 bits and wrap around. -/
def addDeltas (line : Int64) (deltas : List UInt8) : Int64 :=
  deltas.foldl (fun line d => line + delta d) line

/-- Line of the instruction at `pc`, if the prototype has line data for it. -/
def lineAt? (p : Prototype) (pc : Nat) : Option Int64 :=
  if p.debug.lineDeltas.length ≤ pc then none
  else some (addDeltas (p.lineBase pc).1 (p.deltasTo pc))

end Prototype

mutual

/-- Number of prototypes in the tree, the root included. -/
def Prototype.total : Prototype → Nat
  | ⟨_, _, _, _, _, _, _, _, _, protos, _⟩ => 1 + Prototype.totalList protos

/-- Number of prototypes in a list of trees. -/
def Prototype.totalList : List Prototype → Nat
  | [] => 0
  | p :: rest => p.total + totalList rest

end

end LuaBytecode
