import LuaBytecode.Fault
import LuaBytecode.Heap

/-! # Activations

An activation of a function has registers and upvalues, both of them cells of the heap, and a place
in the code. `Exec` is what the instructions are written in: it reads and changes one activation and
the heap, and may stop with a fault. The state at a fault is kept, because what an instruction wrote
before it failed stays written.
-/

namespace LuaBytecode

/-- One activation of a function. -/
structure Frame where
  proto : Prototype
  registers : List CellRef
  upvalues : List CellRef
  fileUpvalues : Nat
  /-- The next instruction. -/
  pc : Nat
  deriving Inhabited

/-- What an instruction can see: its own activation and the heap. -/
structure Scope where
  frame : Frame
  heap : Heap

/-- Start an activation. The parameters get the arguments, every other register nil. The upvalues
are the given cells; those that are missing are new cells holding nil. -/
def Scope.enter (proto : Prototype) (upvalues : List CellRef) (args : List Value)
    (fileUpvalues : Nat) (heap : Heap) : Scope :=
  let size := proto.stackSize.toNat
  let given := (args.take proto.paramCount.toNat).take size
  let (registers, heap) := heap.newCells (given ++ List.replicate (size - given.length) .nil)
  let shared := upvalues.take (max proto.upvalues.length fileUpvalues)
  let missing := max proto.upvalues.length fileUpvalues - shared.length
  let (fresh, heap) := heap.newCells (List.replicate missing .nil)
  { frame := { proto, registers, upvalues := shared ++ fresh, fileUpvalues, pc := 0 }, heap }

abbrev Exec (α : Type) := EStateM Fault Scope α

namespace Exec

/-- The element of a list at an index in an instruction. -/
def lookup {α : Type} (what : Indexed) (xs : List α) (index : Nat) : Exec α := fun s =>
  match xs[index]? with
  | some x => .ok x s
  | none => .error (.outOfRange what index xs.length) s

/-! ## Registers and upvalues -/

/-- The cell of a register. -/
def cell (r : Nat) : Exec CellRef := fun s => lookup .register s.frame.registers r s

def readCell (ref : CellRef) : Exec Value := fun s => .ok (s.heap.cell ref) s

def writeCell (ref : CellRef) (v : Value) : Exec Unit := fun s =>
  .ok () { s with heap := s.heap.setCell ref v }

def reg (r : Nat) : Exec Value := do
  readCell (← cell r)

def setReg (r : Nat) (v : Value) : Exec Unit := do
  writeCell (← cell r) v

/-- The values of `count` registers from `first` on. -/
def regs (first : Nat) : (count : Nat) → Exec (List Value)
  | 0 => return []
  | count + 1 => do
    let v ← reg first
    let rest ← regs (first + 1) count
    return v :: rest

/-- Write the registers from `first` on. -/
def setRegs (first : Nat) : List Value → Exec Unit
  | [] => return ()
  | v :: rest => do
    setReg first v
    setRegs (first + 1) rest

def upvalueCell (index : Nat) : Exec CellRef := fun s =>
  lookup .upvalue s.frame.upvalues index s

def upvalue (index : Nat) : Exec Value := do
  readCell (← upvalueCell index)

/-! ## Constants and code -/

def constant (index : Nat) : Exec Value := fun s =>
  match s.frame.proto.constants[index]? with
  | some k => .ok (.ofConstant k) s
  | none => .error (.outOfRange .constant index s.frame.proto.constants.size) s

/-- Pass over the next instruction. -/
def skip : Exec Unit := fun s => .ok () { s with frame.pc := s.frame.pc + 1 }

/-- Go on `distance` instructions further, or back. -/
def jump (distance : Int) : Exec Unit := fun s =>
  let target := s.frame.pc + distance
  if target < 0 then .error (.outOfRange .jumpTarget target s.frame.proto.code.size) s
  else .ok () { s with frame.pc := target.toNat }

/-- The operand in the word after the instruction, which is passed over. -/
def extraArg : Exec Nat := fun s =>
  match s.frame.proto.code[s.frame.pc]? with
  | some word => .ok word.ax { s with frame.pc := s.frame.pc + 1 }
  | none => .error (.outOfRange .extraArgument s.frame.pc s.frame.proto.code.size) s

/-! ## Tables and closures -/

/-- The table that a value is. -/
def tableOf (action : Action) (v : Value) : Exec TableRef := fun s =>
  match v with
  | .table ref => .ok ref s
  | other => .error (.typeMismatch action .table other.kind) s

def readTable (ref : TableRef) : Exec Table := fun s => .ok (s.heap.table ref) s

def writeTable (ref : TableRef) (t : Table) : Exec Unit := fun s =>
  .ok () { s with heap := s.heap.setTable ref t }

def newTable (t : Table) : Exec Value := fun ⟨frame, heap⟩ =>
  let (ref, heap) := heap.newTable t
  .ok (.table ref) ⟨frame, heap⟩

def newClosure (c : Closure) : Exec Value := fun ⟨frame, heap⟩ =>
  let (ref, heap) := heap.newClosure c
  .ok (.closure ref) ⟨frame, heap⟩

/-- Give the registers from `first` on new cells with the values they have. Closures keep the old
cells, and writes to the registers no longer reach them. -/
def close (first : Nat) : Exec Unit := fun ⟨frame, heap⟩ =>
  let kept := frame.registers.take first
  let values := (frame.registers.drop first).map heap.cell
  let (fresh, heap) := heap.newCells values
  .ok () ⟨{ frame with registers := kept ++ fresh }, heap⟩

/-- Carry over a result that may be a fault. -/
def ofExcept {α : Type} (x : Except Fault α) : Exec α := fun s =>
  match x with
  | .ok a => .ok a s
  | .error fault => .error fault s

end Exec

end LuaBytecode
