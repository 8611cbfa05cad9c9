import LuaBytecode.Arithmetic
import LuaBytecode.Machine.Frame

/-! # Instructions

What each instruction does to its activation and the heap. Calls and returns are not carried out
here: `execute` says what is to happen next, and the machine does it.

R[n] is register n, K[n] constant n; A, B and C are the operands of the instruction.
-/

namespace LuaBytecode

/-- How a run goes on after an instruction. -/
inductive Next where
  /-- With the next instruction of the same activation. -/
  | proceed
  /-- With a call whose first `wanted` results go to the registers from `first` on. -/
  | call (callee : Value) (args : List Value) (first wanted : Nat)
  /-- With a call whose results are those of this activation. -/
  | tailCall (callee : Value) (args : List Value)
  /-- With the end of this activation. -/
  | finish (results : List Value)
  deriving Repr

namespace Exec

/-! ## Values into registers -/

/-- Work out a value, then put it into R[A]. -/
def assign (a : Nat) (value : Exec Value) : Exec Next := do
  let v ← value
  setReg a v
  return .proceed

/-- K[C] if the instruction has its k flag set, otherwise R[C]. -/
def registerOrConstant (i : Instruction) : Exec Value :=
  if i.k then constant i.c.toNat else reg i.c.toNat

def binary (op : ArithOp) (lhs rhs : Exec Value) : Exec Value := do
  let v ← lhs
  let w ← rhs
  ofExcept (op.apply v w)

/-- The arithmetic behind an operation, which must have one. -/
def arithmetic (op : Opcode) (lhs rhs : Exec Value) : Exec Value :=
  match ArithOp.ofOpcode? op with
  | some arith => binary arith lhs rhs
  | none => throw (.invalidOpcode op.number)

def setUpvalue (a b : Nat) : Exec Next := do
  let v ← reg a
  let ref ← upvalueCell b
  writeCell ref v
  return .proceed

/-! ## Reading tables -/

/-- A field of an upvalue; the key must be text. -/
def upvalueField (upvalueIndex key : Nat) : Exec Value := do
  let ref ← tableOf .indexUpvalue (← upvalue upvalueIndex)
  let k ← constant key
  if k.kind = .string then return (← readTable ref).get k
  else throw (.typeMismatch .indexUpvalueWith .string k.kind)

/-- The value of a key; a nil key stands for the key that came in last. -/
def index (b c : Nat) : Exec Value := do
  let ref ← tableOf .index (← reg b)
  let k ← reg c
  let t ← readTable ref
  if k = .nil then
    match t.lastKey? with
    | some last => return t.get last
    | none => return .nil
  else return t.get k

/-- The value of a key in a table; nil where there is no table or no key. -/
def lenientGet (source k : Value) : Exec Value :=
  match source with
  | .table ref => if k = .nil then return .nil else return (← readTable ref).get k
  | _ => return .nil

/-- R[A+1] := R[B], and R[A] := R[B][key] if R[B] is a table. -/
def self (a b : Nat) (key : Exec Value) : Exec Next := do
  let receiver ← reg b
  let k ← key
  setReg (a + 1) receiver
  if k = .nil then throw (.nilKey .self)
  else
    match receiver with
    | .table ref => assign a (return (← readTable ref).get k)
    | _ => return .proceed

def length (v : Value) : Exec Value :=
  match v with
  | .table ref => return .int (Int64.ofNat (← readTable ref).size)
  | _ => return .int 0

/-! ## Writing tables -/

/-- Set a field, whose key and value have been worked out already. -/
def setField (action : Action) (target k v : Value) : Exec Next := do
  let ref ← tableOf action target
  match (← readTable ref).set? k v with
  | some t =>
    writeTable ref t
    return .proceed
  | none => throw (.nilKey action)

/-- Set a field of an upvalue; the key must be text. -/
def setUpvalueField (a key : Nat) (value : Exec Value) : Exec Next := do
  let target ← upvalue a
  let k ← constant key
  if k.kind = .string then setField .assignUpvalue target k (← value)
  else throw (.typeMismatch .assignUpvalueWith .string k.kind)

/-- Set a field of R[A]. -/
def setRegisterField (a : Nat) (key value : Exec Value) : Exec Next := do
  let target ← reg a
  let k ← key
  let v ← value
  setField .assign target k v

/-- The operand C, extended by the following word if the k flag is set. -/
def extendedC (i : Instruction) : Exec Nat := do
  if i.k then return i.c.toNat + (← extraArg) * 256
  else return i.c.toNat

/-- The size hint is read and has no effect. -/
def createTable (i : Instruction) : Exec Next := do
  let _ ← extendedC i
  assign i.a.toNat (newTable .empty)

/-- Set consecutive keys of R[A] to the B values in the registers after it. -/
def setList (i : Instruction) : Exec Next := do
  let offset ← extendedC i
  if i.b = 0 then return .proceed
  else
    let ref ← tableOf .setListOn (← reg i.a.toNat)
    let values ← regs (i.a.toNat + 1) i.b.toNat
    let t ← readTable ref
    writeTable ref (t.insertFrom (offset + 1) values)
    return .proceed

/-- The B values from R[A] on, collected in a new table. -/
def concat (a b : Nat) : Exec Value := do
  newTable (.ofValues (← regs a b))

/-! ## Tests and jumps -/

/-- Pass over the next instruction unless the outcome is as expected. -/
def skipUnless (expected : Bool) (outcome : Exec Bool) : Exec Next := do
  if (← outcome) ≠ expected then skip
  return .proceed

/-- Compare R[A] with another value. -/
def compareWith (a : Nat) (other : Exec Value) (test : Value → Value → Bool) : Exec Bool := do
  let v ← reg a
  let w ← other
  return test v w

/-- Compare R[A] with the signed operand B. -/
def compareImmediate (i : Instruction) (test : Option Ordering → Bool) : Exec Bool := do
  let v ← reg i.a.toNat
  return test (v.compareImmediate? (Int64.ofInt i.sb))

/-- R[A] := R[B] if R[B] counts as expected, otherwise pass over the next instruction. -/
def testSet (a b : Nat) (expected : Bool) : Exec Next := do
  let v ← reg b
  if v.isTruthy ≠ expected then
    skip
    return .proceed
  else assign a (return v)

def jumpBy (distance : Int) : Exec Next := do
  jump distance
  return .proceed

/-- Enter a loop if its counter is positive, otherwise jump behind it. -/
def forPrep (a bx : Nat) : Exec Next := do
  let v ← reg a
  if v.number?.any Number.isPositive then return .proceed
  else jumpBy (bx + 1)

/-- Count down, and jump back while the counter is positive. -/
def forLoop (a bx : Nat) : Exec Next := do
  let n := (← reg a).numberOrZero.pred
  setReg a n.toValue
  if n.isPositive then jumpBy (-bx)
  else return .proceed

/-! ## Functions -/

/-- The cell that a new closure shares with this activation. -/
def capture (u : UpvalueSource) : Exec CellRef :=
  if u.inStack then cell u.index.toNat else upvalueCell u.index.toNat

def captureAll : List UpvalueSource → Exec (List CellRef)
  | [] => return []
  | u :: rest => do
    let ref ← capture u
    let refs ← captureAll rest
    return ref :: refs

/-- A new closure of a nested function. -/
def createClosure (bx : Nat) : Exec Value := fun s =>
  let body : Exec Value := do
    let child ← lookup .prototype s.frame.proto.protos bx
    let upvalues ← captureAll child.upvalues
    newClosure { proto := child, upvalues, fileUpvalues := s.frame.fileUpvalues }
  body s

/-- Put the first `wanted` results into the registers from `first` on; a new table stands for each
result that is missing. -/
def storeResults (first : Nat) : (wanted : Nat) → List Value → Exec Unit
  | 0, _ => return ()
  | wanted + 1, [] => do
    setReg first (← newTable .empty)
    storeResults (first + 1) wanted []
  | wanted + 1, v :: rest => do
    setReg first v
    storeResults (first + 1) wanted rest

/-- As many new tables. -/
def newTables : Nat → Exec (List Value)
  | 0 => return []
  | count + 1 => do
    let v ← newTable .empty
    let rest ← newTables count
    return v :: rest

/-- Call R[A] with the B - 1 values after it, for C results. What cannot be called counts as a
function without results. -/
def call (a b c : Nat) : Exec Next := do
  let callee ← reg a
  if callee.isCallable then return .call callee (← regs (a + 1) (b - 1)) a c
  else
    storeResults a c []
    return .proceed

/-- Call R[A] in place of this activation. What cannot be called gives C new tables. -/
def tailCall (a b c : Nat) : Exec Next := do
  let callee ← reg a
  if callee.isCallable then return .tailCall callee (← regs (a + 1) (b - 1))
  else return .finish (← newTables c)

/-- Return the registers from R[A] on: all of them for B = 0, one for B = 1, and otherwise
B - 1. -/
def returnFrom (a b : Nat) : Exec Next := fun s =>
  let count := if b = 0 then s.frame.registers.length - a else if b = 1 then 1 else b - 1
  let body : Exec Next := do
    return .finish (← regs a count)
  body s

end Exec

open Exec

/-- Carry out an instruction whose operation is `op`. The place in the code is already behind it. -/
def Instruction.execute (i : Instruction) (op : Opcode) : Exec Next :=
  let a := i.a.toNat
  let b := i.b.toNat
  let c := i.c.toNat
  match op with
  | .move => assign a (reg b)
  | .loadI => assign a (return .int (Int64.ofInt i.sbx))
  | .loadF => assign a (return .float (.ofInt64 (Int64.ofInt i.sbx)))
  | .loadK => assign a (constant i.bx)
  | .loadKX => assign a (do constant (← extraArg))
  | .loadFalse => assign a (return .bool false)
  | .loadFalseSkip => do
    setReg a (.bool false)
    skip
    return .proceed
  | .loadTrue => assign a (return .bool true)
  | .loadNil => do
    setRegs a (List.replicate (b + 1) .nil)
    return .proceed
  | .getUpvalue => assign a (upvalue b)
  | .setUpvalue => Exec.setUpvalue a b
  | .getTabUp => assign a (upvalueField b c)
  | .getTable => assign a (index b c)
  | .getI => assign a (do lenientGet (← reg b) (.int (Int64.ofNat c)))
  | .getField => assign a (do
    let source ← reg b
    let k ← constant c
    lenientGet source k)
  | .setTabUp => setUpvalueField a b (registerOrConstant i)
  | .setTable => setRegisterField a (reg b) (registerOrConstant i)
  | .setI => setRegisterField a (return .int (Int64.ofNat b)) (registerOrConstant i)
  | .setField => setRegisterField a (constant b) (registerOrConstant i)
  | .newTable => createTable i
  | .self => Exec.self a b (registerOrConstant i)
  | .addI => assign a (binary .add (reg b) (return .int (Int64.ofInt i.sc)))
  | .shrI => assign a (binary .shr (reg b) (return .int (Int64.ofInt i.sc)))
  | .shlI => assign a (binary .shl (return .int (Int64.ofInt i.sc)) (reg b))
  | .addK | .subK | .mulK | .modK | .powK | .divK | .idivK | .bandK | .borK | .bxorK =>
    assign a (arithmetic op (reg b) (constant c))
  | .add | .sub | .mul | .mod | .pow | .div | .idiv | .band | .bor | .bxor | .shl | .shr =>
    assign a (arithmetic op (reg b) (reg c))
  | .mmBin | .mmBinI | .mmBinK | .tbc | .varargPrep | .extraArg => return .proceed
  | .unm => assign a (return (← reg b).negate)
  | .bnot => assign a (return (← reg b).complement)
  | .not => assign a (return .bool (!(← reg b).isTruthy))
  | .len => assign a (do length (← reg b))
  | .concat => assign a (Exec.concat a b)
  | .close => do
    Exec.close a
    return .proceed
  | .jmp => jumpBy i.sj
  | .eq => skipUnless i.k (compareWith a (reg b) Value.rawEquals)
  | .lt => skipUnless i.k (compareWith a (reg b) Value.lessThan)
  | .le => skipUnless i.k (compareWith a (reg b) Value.lessEqual)
  | .eqK => skipUnless i.k (compareWith a (constant b) Value.rawEquals)
  | .eqI => skipUnless i.k (compareImmediate i (· == some .eq))
  | .ltI => skipUnless i.k (compareImmediate i (· == some .lt))
  | .leI => skipUnless i.k (compareImmediate i fun o => o == some .lt || o == some .eq)
  | .gtI => skipUnless i.k (compareImmediate i (· == some .gt))
  | .geI => skipUnless i.k (compareImmediate i fun o => o == some .gt || o == some .eq)
  | .test => skipUnless i.k (return (← reg a).isTruthy)
  | .testSet => Exec.testSet a b i.k
  | .call => Exec.call a b c
  | .tailCall => Exec.tailCall a b c
  | .ret => returnFrom a b
  | .ret0 => return .finish []
  | .ret1 => return .finish [← reg a]
  | .forPrep => Exec.forPrep a i.bx
  | .forLoop => Exec.forLoop a i.bx
  | .tforPrep | .tforCall | .tforLoop => throw (.unimplemented .genericFor)
  | .setList => Exec.setList i
  | .closure => assign a (createClosure i.bx)
  | .vararg => throw (.unimplemented .vararg)

end LuaBytecode
