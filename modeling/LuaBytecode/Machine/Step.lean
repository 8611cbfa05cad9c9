import LuaBytecode.Chunk.Basic
import LuaBytecode.Host.Basic
import LuaBytecode.Machine.Execute

/-! # The machine

A run is a stack of activations of which the topmost works. One step carries out one instruction, or
ends an activation that has run out of code. A call suspends the caller, together with what is to be
done with the results; a fault ends all activations.

Two limits bound a run: the number of activations at a time, and the number of instructions in all.
The machine counts both, and what it counts stays with it from one call to the next.
-/

namespace LuaBytecode

structure Limits where
  /-- Most activations at a time. -/
  depth : Nat := 200
  /-- Most instructions in all. -/
  instructions : Option Nat := none
  deriving DecidableEq, Repr, Inhabited

/-- What lasts from one call to the next. -/
structure Machine where
  limits : Limits := {}
  /-- Activations that have not ended. -/
  depth : Nat := 0
  /-- Instructions carried out so far. -/
  executed : Nat := 0
  heap : Heap := {}
  printed : Array String := #[]
  deriving Inhabited

/-- What a suspended activation does with the results of its call. -/
inductive Delivery where
  /-- Put the first `wanted` results into the registers from `first` on. -/
  | store (first wanted : Nat)
  /-- Return them as its own. -/
  | forward
  deriving DecidableEq, Repr

/-- An activation that waits for the results of a call. -/
structure Caller where
  frame : Frame
  delivery : Delivery

/-- A run under way. -/
structure Running where
  machine : Machine
  frame : Frame
  callers : List Caller

abbrev Outcome := Except Fault (List Value)

inductive Status where
  | running (run : Running)
  | finished (machine : Machine) (outcome : Outcome)

namespace Machine

def withHeap (m : Machine) (heap : Heap) : Machine := { m with heap }

/-- Count one instruction. -/
def tick (m : Machine) : Machine := { m with executed := m.executed + 1 }

/-- The limit on instructions, if it has been passed. -/
def overBudget? (m : Machine) : Option Nat :=
  m.limits.instructions.filter (· < m.executed)

/-- End one activation. -/
def leave (m : Machine) : Machine := { m with depth := m.depth - 1 }

/-- End `active` activations because of a fault. -/
def fail (m : Machine) (active : Nat) (fault : Fault) : Status :=
  .finished (Nat.repeat leave active m) (.error fault)

/-- Start an activation on top of the callers. -/
def enter (m : Machine) (proto : Prototype) (upvalues : List CellRef) (args : List Value)
    (fileUpvalues : Nat) (callers : List Caller) : Status :=
  if m.limits.depth ≤ m.depth then m.fail callers.length .stackOverflow
  else
    let ⟨limits, depth, executed, heap, printed⟩ := m
    let ⟨frame, heap⟩ := Scope.enter proto upvalues args fileUpvalues heap
    .running ⟨⟨limits, depth + 1, executed, heap, printed⟩, frame, callers⟩

/-- Carry out an action in an activation. Whether it succeeds or not, the activation and the heap
are as the action leaves them. -/
def perform {α : Type} (m : Machine) (frame : Frame) (action : Exec α) :
    Except Fault α × Machine × Frame :=
  let ⟨limits, depth, executed, heap, printed⟩ := m
  match action ⟨frame, heap⟩ with
  | .ok a ⟨frame, heap⟩ => (.ok a, ⟨limits, depth, executed, heap, printed⟩, frame)
  | .error fault ⟨frame, heap⟩ => (.error fault, ⟨limits, depth, executed, heap, printed⟩, frame)

/-- Hand the results of a call to the callers. -/
def deliver (m : Machine) (results : List Value) : List Caller → Status
  | [] => .finished m (.ok results)
  | ⟨_, .forward⟩ :: rest => m.leave.deliver results rest
  | ⟨frame, .store first wanted⟩ :: rest =>
    match m.perform frame (Exec.storeResults first wanted results) with
    | (.ok (), machine, frame) => .running { machine, frame, callers := rest }
    | (.error fault, machine, _) => machine.fail (rest.length + 1) fault

/-- Call a value on behalf of the callers. -/
def call (host : Host) (m : Machine) (callee : Value) (args : List Value)
    (callers : List Caller) : Status :=
  match callee with
  | .closure ref =>
    let c := m.heap.closure ref
    m.enter c.proto c.upvalues args c.fileUpvalues callers
  | .host name =>
    let reply := host name args m.heap.tables
    let m := { m with heap.tables := reply.tables, printed := m.printed ++ reply.printed.toArray }
    match reply.outcome with
    | .ok results => m.deliver results callers
    | .error message => m.fail callers.length (.host message)
  | other => m.fail callers.length (.typeMismatch .call .function other.kind)

end Machine

namespace Running

/-- Go on as the instruction that has just been carried out says. -/
def follow (host : Host) (r : Running) : Next → Status
  | .proceed => .running r
  | .call callee args first wanted =>
    r.machine.call host callee args (⟨r.frame, .store first wanted⟩ :: r.callers)
  | .tailCall callee args => r.machine.call host callee args (⟨r.frame, .forward⟩ :: r.callers)
  | .finish results => r.machine.leave.deliver results r.callers

/-- End all activations because of a fault. -/
def fail (r : Running) (fault : Fault) : Status :=
  r.machine.fail (r.callers.length + 1) fault

/-- Carry out one instruction; the place in the code moves behind it first. -/
def dispatch (host : Host) (r : Running) (i : Instruction) : Status :=
  match i.opcode? with
  | none => r.fail (.invalidOpcode i.opcodeNumber)
  | some op =>
    let ⟨machine, frame, callers⟩ := r
    match machine.perform { frame with pc := frame.pc + 1 } (i.execute op) with
    | (.ok next, machine, frame) => follow host ⟨machine, frame, callers⟩ next
    | (.error fault, machine, frame) => fail ⟨machine, frame, callers⟩ fault

/-- One step of a run. An instruction counts against the budget before anything else is done with
it, and behind the last instruction an activation ends without results. -/
def step (host : Host) (r : Running) : Status :=
  match r.frame.proto.code[r.frame.pc]? with
  | none => r.follow host (.finish [])
  | some i =>
    let r := { r with machine := r.machine.tick }
    match r.machine.overBudget? with
    | some limit => r.fail (.budgetExceeded limit)
    | none => r.dispatch host i

end Running

namespace Status

/-- At most `steps` further steps. -/
def run (host : Host) : (steps : Nat) → Status → Status
  | 0, s => s
  | _ + 1, .finished m outcome => .finished m outcome
  | steps + 1, .running r => run host steps (r.step host)

end Status

namespace Machine

/-- Begin a call of a function with the given upvalues. -/
def callPrototype (m : Machine) (proto : Prototype) (upvalues : List CellRef) (args : List Value)
    (fileUpvalues : Nat) : Status :=
  m.enter proto upvalues args fileUpvalues []

/-- Begin a call of a value. -/
def callValue (host : Host) (m : Machine) (callee : Value) (args : List Value) : Status :=
  m.call host callee args []

/-- Begin the entry function of a chunk; `env` is the value of its first upvalue. -/
def callChunk (m : Machine) (chunk : Chunk) (env : Value) : Status :=
  let (upvalues, heap) := m.heap.newCells [env]
  (m.withHeap heap).callPrototype chunk.main upvalues [] chunk.upvalueCount.toNat

end Machine

end LuaBytecode
