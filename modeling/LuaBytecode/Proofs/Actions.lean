import Mathlib
import LuaBytecode.Machine.Execute

/-! # What instructions are made of

All instructions are put together from a few actions on the registers and upvalues of
an activation, its place in the code, and the tables and closures of the heap. A
property that these actions have, and that passes from two actions to one after the
other, is a property of every instruction.
-/

namespace LuaBytecode

/-- The operations that the machine knows of and does not support. -/
def Opcode.unsupported : List Opcode := [.tforPrep, .tforCall, .tforLoop, .vararg]

namespace Exec

variable {α β : Type}

/-- A property of actions that passes from the parts to the whole, and that looking for the
cells of an activation has. -/
structure Composed (P : ∀ {α : Type}, Exec α → Prop) : Prop where
  pure {α : Type} (a : α) : P (pure a : Exec α)
  bind {α β : Type} {x : Exec α} {f : α → Exec β} : P x → (∀ a, P (f a)) → P (x >>= f)
  cell (r : Nat) : P (cell r)
  upvalueCell (i : Nat) : P (upvalueCell i)

theorem Composed.captureAll {P : ∀ {α : Type}, Exec α → Prop} (hP : Composed P)
    (us : List UpvalueSource) : P (captureAll us) := by
  induction us with
  | nil => exact hP.pure []
  | cons u rest ih =>
      refine hP.bind ?_ fun ref => hP.bind ih fun refs => hP.pure _
      unfold capture
      split
      · exact hP.cell _
      · exact hP.upvalueCell _

/-- A property of actions that passes from the parts to the whole, and that what is done with the
registers of an activation and with tables has. Whether it holds of the actions that look for
upvalues and constants is left open. -/
structure Ordinary (P : ∀ {α : Type}, Exec α → Prop) : Prop where
  pure {α : Type} (a : α) : P (pure a : Exec α)
  bind {α β : Type} {x : Exec α} {f : α → Exec β} : P x → (∀ a, P (f a)) → P (x >>= f)
  cell (r : Nat) : P (cell r)
  readCell (ref : CellRef) : P (readCell ref)
  writeCell (ref : CellRef) (v : Value) : P (writeCell ref v)
  tableOf (action : Action) (v : Value) : P (tableOf action v)
  readTable (ref : TableRef) : P (readTable ref)
  writeTable (ref : TableRef) (t : Table) : P (writeTable ref t)
  skip : P skip
  wrongKey {α : Type} (action : Action) {k : Value} : ¬ k.kind = .string →
    P (throw (.typeMismatch action .string k.kind) : Exec α)
  nilKey {α : Type} (action : Action) : P (throw (.nilKey action) : Exec α)

/-- A property that passes from the parts to the whole, and that the parts of instructions
have. Jumps backward, arithmetic and what is not supported are left out, as some properties
depend on them. -/
structure Inherited (P : ∀ {α : Type}, Exec α → Prop) : Prop extends Composed P, Ordinary P where
  constant (i : Nat) : P (constant i)
  newTable (t : Table) : P (newTable t)
  createClosure (bx : Nat) : P (createClosure bx)
  close (first : Nat) : P (close first)
  extraArg : P extraArg
  jump {distance : Int} : 0 ≤ distance → P (jump distance)

namespace Ordinary

variable {P : ∀ {α : Type}, Exec α → Prop}

theorem ite (_ : Ordinary P) {c : Prop} [Decidable c] {x y : Exec α} (hx : c → P x)
    (hy : ¬ c → P y) : P (if c then x else y) := by
  split
  · next h => exact hx h
  · next h => exact hy h

variable (hP : Ordinary P)

include hP

/-! ## Registers and upvalues -/

theorem reg (r : Nat) : P (reg r) := hP.bind (hP.cell r) hP.readCell

theorem setReg (r : Nat) (v : Value) : P (setReg r v) :=
  hP.bind (hP.cell r) fun ref => hP.writeCell ref v

theorem regs (first count : Nat) : P (regs first count) := by
  induction count generalizing first with
  | zero => exact hP.pure []
  | succ count ih => exact hP.bind (hP.reg first) fun _ => hP.bind (ih _) fun _ => hP.pure _

theorem setRegs (first : Nat) (values : List Value) : P (setRegs first values) := by
  induction values generalizing first with
  | nil => exact hP.pure ()
  | cons v rest ih => exact hP.bind (hP.setReg first v) fun _ => ih _

theorem assign (a : Nat) {x : Exec Value} (hx : P x) : P (assign a x) :=
  hP.bind hx fun v => hP.bind (hP.setReg a v) fun _ => hP.pure _

theorem registerOrConstant {i : Instruction} (hconstant : i.k = true → P (constant i.c.toNat)) :
    P (registerOrConstant i) :=
  hP.ite hconstant fun _ => hP.reg _

theorem binary {op : ArithOp} (hop : ∀ v w, P (ofExcept (op.apply v w))) {x y : Exec Value}
    (hx : P x) (hy : P y) : P (binary op x y) :=
  hP.bind hx fun v => hP.bind hy fun w => hop v w

/-- Where an operation has arithmetic behind it, nothing else is done. -/
theorem arithmetic {op : Opcode} {arith : ArithOp} (hop : ArithOp.ofOpcode? op = some arith)
    (harith : ∀ v w, P (ofExcept (arith.apply v w))) {x y : Exec Value} (hx : P x) (hy : P y) :
    P (arithmetic op x y) := by
  unfold Exec.arithmetic
  rw [hop]
  exact hP.binary harith hx hy

theorem upvalue {i : Nat} (hi : P (upvalueCell i)) : P (upvalue i) := hP.bind hi hP.readCell

theorem setUpvalue (a : Nat) {b : Nat} (hb : P (upvalueCell b)) : P (Exec.setUpvalue a b) :=
  hP.bind (hP.reg a) fun v => hP.bind hb fun ref => hP.bind (hP.writeCell ref v) fun _ => hP.pure _

/-! ## Tables -/

theorem upvalueField {i key : Nat} (hi : P (upvalueCell i)) (hkey : P (constant key)) :
    P (upvalueField i key) :=
  hP.bind (hP.upvalue hi) fun _ => hP.bind (hP.tableOf _ _) fun ref =>
    hP.bind hkey fun _ =>
      hP.ite (fun _ => hP.bind (hP.readTable ref) fun _ => hP.pure _) fun hk => hP.wrongKey _ hk

theorem index (b c : Nat) : P (index b c) := by
  refine hP.bind (hP.reg b) fun _ => hP.bind (hP.tableOf _ _) fun ref =>
    hP.bind (hP.reg c) fun _ => hP.bind (hP.readTable ref) fun _ =>
      hP.ite (fun _ => ?_) fun _ => hP.pure _
  split
  · exact hP.pure _
  · exact hP.pure _

theorem lenientGet (source k : Value) : P (lenientGet source k) := by
  unfold Exec.lenientGet
  split
  · exact hP.ite (fun _ => hP.pure _) fun _ => hP.bind (hP.readTable _) fun _ => hP.pure _
  · exact hP.pure _

theorem self (a b : Nat) {key : Exec Value} (hkey : P key) : P (Exec.self a b key) := by
  refine hP.bind (hP.reg b) fun receiver => hP.bind hkey fun k =>
    hP.bind (hP.setReg _ _) fun _ => hP.ite (fun _ => hP.nilKey _) fun _ => ?_
  split
  · exact hP.assign a (hP.bind (hP.readTable _) fun _ => hP.pure _)
  · exact hP.pure _

theorem length (v : Value) : P (length v) := by
  unfold Exec.length
  split
  · exact hP.bind (hP.readTable _) fun _ => hP.pure _
  · exact hP.pure _

theorem setField (action : Action) (target k v : Value) : P (setField action target k v) := by
  refine hP.bind (hP.tableOf _ _) fun ref => hP.bind (hP.readTable ref) fun t => ?_
  split
  · exact hP.bind (hP.writeTable ref _) fun _ => hP.pure _
  · exact hP.nilKey _

theorem setUpvalueField {a key : Nat} (ha : P (upvalueCell a)) (hkey : P (constant key))
    {value : Exec Value} (hvalue : P value) : P (setUpvalueField a key value) :=
  hP.bind (hP.upvalue ha) fun target => hP.bind hkey fun k =>
    hP.ite (fun _ => hP.bind hvalue fun v => hP.setField _ target k v) fun hk => hP.wrongKey _ hk

theorem setRegisterField (a : Nat) {key value : Exec Value} (hkey : P key) (hvalue : P value) :
    P (setRegisterField a key value) :=
  hP.bind (hP.reg a) fun target => hP.bind hkey fun k => hP.bind hvalue fun v =>
    hP.setField _ target k v

/-! ## Tests and jumps -/

theorem skipUnless (expected : Bool) {outcome : Exec Bool} (houtcome : P outcome) :
    P (skipUnless expected outcome) := by
  refine hP.bind houtcome fun met => ?_
  split
  · exact hP.bind hP.skip fun _ => hP.pure _
  · exact hP.pure _

theorem compareWith (a : Nat) {other : Exec Value} (hother : P other)
    (test : Value → Value → Bool) : P (compareWith a other test) :=
  hP.bind (hP.reg a) fun _ => hP.bind hother fun _ => hP.pure _

theorem compareImmediate (i : Instruction) (test : Option Ordering → Bool) :
    P (compareImmediate i test) :=
  hP.bind (hP.reg _) fun _ => hP.pure _

theorem testSet (a b : Nat) (expected : Bool) : P (Exec.testSet a b expected) :=
  hP.bind (hP.reg b) fun _ => hP.ite (fun _ => hP.bind hP.skip fun _ => hP.pure _) fun _ =>
    hP.assign a (hP.pure _)

end Ordinary

namespace Inherited

variable {P : ∀ {α : Type}, Exec α → Prop} (hP : Inherited P)

include hP

/-! ## New tables, and words of code -/

theorem extendedC (i : Instruction) : P (extendedC i) :=
  hP.ite (fun _ => hP.bind hP.extraArg fun _ => hP.pure _) fun _ => hP.pure _

theorem createTable (i : Instruction) : P (createTable i) :=
  hP.bind (hP.extendedC i) fun _ => hP.assign _ (hP.newTable _)

theorem setList (i : Instruction) : P (Exec.setList i) :=
  hP.bind (hP.extendedC i) fun _ => hP.ite (fun _ => hP.pure _) fun _ =>
    hP.bind (hP.reg _) fun _ => hP.bind (hP.tableOf _ _) fun ref =>
      hP.bind (hP.regs _ _) fun _ => hP.bind (hP.readTable ref) fun _ =>
        hP.bind (hP.writeTable ref _) fun _ => hP.pure _

theorem concat (a b : Nat) : P (Exec.concat a b) := hP.bind (hP.regs a b) fun _ => hP.newTable _

/-! ## Loops -/

theorem jumpBy {distance : Int} (hjump : P (Exec.jump distance)) : P (jumpBy distance) :=
  hP.bind hjump fun _ => hP.pure _

theorem forPrep (a bx : Nat) : P (Exec.forPrep a bx) :=
  hP.bind (hP.reg a) fun _ => hP.ite (fun _ => hP.pure _) fun _ => hP.jumpBy (hP.jump (by omega))

theorem forLoop (a : Nat) {bx : Nat} (hjump : P (Exec.jump (-bx))) : P (Exec.forLoop a bx) :=
  hP.bind (hP.reg a) fun _ => hP.bind (hP.setReg _ _) fun _ =>
    hP.ite (fun _ => hP.jumpBy hjump) fun _ => hP.pure _

/-! ## Functions -/

theorem storeResults (first wanted : Nat) (results : List Value) :
    P (storeResults first wanted results) := by
  induction wanted generalizing first results with
  | zero => exact hP.pure ()
  | succ wanted ih =>
      cases results with
      | nil =>
          exact hP.bind (hP.newTable _) fun _ => hP.bind (hP.setReg _ _) fun _ => ih _ _
      | cons v rest => exact hP.bind (hP.setReg _ _) fun _ => ih _ _

theorem newTables (count : Nat) : P (newTables count) := by
  induction count with
  | zero => exact hP.pure []
  | succ count ih => exact hP.bind (hP.newTable _) fun _ => hP.bind ih fun _ => hP.pure _

theorem call (a b c : Nat) : P (Exec.call a b c) :=
  hP.bind (hP.reg a) fun _ => hP.ite (fun _ => hP.bind (hP.regs _ _) fun _ => hP.pure _) fun _ =>
    hP.bind (hP.storeResults _ _ _) fun _ => hP.pure _

theorem tailCall (a b c : Nat) : P (Exec.tailCall a b c) :=
  hP.bind (hP.reg a) fun _ => hP.ite (fun _ => hP.bind (hP.regs _ _) fun _ => hP.pure _) fun _ =>
    hP.bind (hP.newTables _) fun _ => hP.pure _

/-- All instructions inherit the property, the two that can jump backward if the jump has it, and
those that do arithmetic if the operation behind them has it. What `Return` does depends on the
number of registers, so it is looked at by itself. -/
theorem execute (i : Instruction) (op : Opcode) (hjmp : op = .jmp → P (Exec.jump i.sj))
    (hloop : op = .forLoop → P (Exec.jump (-i.bx)))
    (hreturn : ∀ a b, P (returnFrom a b))
    (harith : ∀ {arith}, ArithOp.ofOpcode? op = some arith → ∀ v w, P (ofExcept (arith.apply v w)))
    (hunsupported : op ∈ Opcode.unsupported →
      ∀ feature, P (throw (.unimplemented feature) : Exec Next)) : P (i.execute op) := by
  cases op
  case move => exact hP.assign _ (hP.reg _)
  case loadI | loadF | loadFalse | loadTrue => exact hP.assign _ (hP.pure _)
  case loadK => exact hP.assign _ (hP.constant _)
  case loadKX => exact hP.assign _ (hP.bind hP.extraArg hP.constant)
  case loadFalseSkip =>
    exact hP.bind (hP.setReg _ _) fun _ => hP.bind hP.skip fun _ => hP.pure _
  case loadNil => exact hP.bind (hP.setRegs _ _) fun _ => hP.pure _
  case getUpvalue => exact hP.assign _ (hP.upvalue (hP.upvalueCell _))
  case setUpvalue => exact hP.setUpvalue _ (hP.upvalueCell _)
  case getTabUp => exact hP.assign _ (hP.upvalueField (hP.upvalueCell _) (hP.constant _))
  case getTable => exact hP.assign _ (hP.index _ _)
  case getI => exact hP.assign _ (hP.bind (hP.reg _) fun _ => hP.lenientGet _ _)
  case getField =>
    exact hP.assign _ (hP.bind (hP.reg _) fun _ => hP.bind (hP.constant _) fun _ =>
      hP.lenientGet _ _)
  case setTabUp =>
    exact hP.setUpvalueField (hP.upvalueCell _) (hP.constant _)
      (hP.registerOrConstant fun _ => hP.constant _)
  case setTable =>
    exact hP.setRegisterField _ (hP.reg _) (hP.registerOrConstant fun _ => hP.constant _)
  case setI =>
    exact hP.setRegisterField _ (hP.pure _) (hP.registerOrConstant fun _ => hP.constant _)
  case setField =>
    exact hP.setRegisterField _ (hP.constant _) (hP.registerOrConstant fun _ => hP.constant _)
  case newTable => exact hP.createTable i
  case self => exact hP.self _ _ (hP.registerOrConstant fun _ => hP.constant _)
  case addI | shrI => exact hP.assign _ (hP.binary (harith rfl) (hP.reg _) (hP.pure _))
  case shlI => exact hP.assign _ (hP.binary (harith rfl) (hP.pure _) (hP.reg _))
  case addK | subK | mulK | modK | powK | divK | idivK | bandK | borK | bxorK =>
    exact hP.assign _ (hP.arithmetic rfl (harith rfl) (hP.reg _) (hP.constant _))
  case add | sub | mul | mod | pow | div | idiv | band | bor | bxor | shl | shr =>
    exact hP.assign _ (hP.arithmetic rfl (harith rfl) (hP.reg _) (hP.reg _))
  case mmBin | mmBinI | mmBinK | tbc | varargPrep | extraArg | ret0 => exact hP.pure _
  case unm | bnot | not => exact hP.assign _ (hP.bind (hP.reg _) fun _ => hP.pure _)
  case len => exact hP.assign _ (hP.bind (hP.reg _) fun _ => hP.length _)
  case concat => exact hP.assign _ (hP.concat _ _)
  case close => exact hP.bind (hP.close _) fun _ => hP.pure _
  case jmp => exact hP.jumpBy (hjmp rfl)
  case eq | lt | le => exact hP.skipUnless _ (hP.compareWith _ (hP.reg _) _)
  case eqK => exact hP.skipUnless _ (hP.compareWith _ (hP.constant _) _)
  case eqI | ltI | leI | gtI | geI => exact hP.skipUnless _ (hP.compareImmediate i _)
  case test => exact hP.skipUnless _ (hP.bind (hP.reg _) fun _ => hP.pure _)
  case testSet => exact hP.testSet _ _ _
  case call => exact hP.call _ _ _
  case tailCall => exact hP.tailCall _ _ _
  case ret => exact hreturn _ _
  case ret1 => exact hP.bind (hP.reg _) fun _ => hP.pure _
  case forPrep => exact hP.forPrep _ _
  case forLoop => exact hP.forLoop _ (hloop rfl)
  case tforPrep | tforCall | tforLoop | vararg => exact hunsupported (by decide) _
  case setList => exact hP.setList i
  case closure => exact hP.assign _ (hP.createClosure _)

end Inherited

end Exec

end LuaBytecode
