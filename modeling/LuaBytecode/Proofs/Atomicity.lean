import Mathlib
import LuaBytecode.Proofs.Effects

/-! # Instructions that fault

An instruction does its checks first and its writing last: where it faults, the
tables and the cells are as they were. Three instructions write registers and
can still fault after that, `LoadNil`, `Self` and `ForLoop`; these leave alone
everything but the registers. So does a call of what cannot be called, which
stores tables in registers one after the other.
-/

namespace LuaBytecode

/-- The instructions that can fault after they have written a register. -/
def Opcode.writesEarly : Opcode → Bool
  | .loadNil | .self | .forLoop => true
  | _ => false

theorem Opcode.writesEarly_iff (op : Opcode) :
    op.writesEarly ↔ op = .loadNil ∨ op = .self ∨ op = .forLoop := by
  cases op <;> simp [writesEarly]

namespace Exec

variable {α β : Type} {e : Extent}

/-- The action never faults. -/
def Total (x : Exec α) : Prop := ∀ s, ∃ a s', x s = .ok a s'

theorem total_pure (a : α) : Total (pure a : Exec α) := fun s => ⟨a, s, rfl⟩

theorem total_skip : Total skip := fun _ => ⟨(), _, rfl⟩

theorem total_writeCell (ref : CellRef) (v : Value) : Total (writeCell ref v) :=
  fun _ => ⟨(), _, rfl⟩

theorem total_writeTable (ref : TableRef) (t : Table) : Total (writeTable ref t) :=
  fun _ => ⟨(), _, rfl⟩

theorem total_close (first : Nat) : Total (Exec.close first) := fun _ => ⟨(), _, rfl⟩

theorem total_bind {x : Exec α} {f : α → Exec β} (hx : Total x) (hf : ∀ a, Total (f a)) :
    Total (x >>= f) := by
  intro s
  obtain ⟨a, s₁, hxs⟩ := hx s
  obtain ⟨b, s₂, hfs⟩ := hf a s₁
  exact ⟨b, s₂, (bind_ok hxs).trans hfs⟩

/-- Where the action faults, it has changed nothing beyond the extent. -/
def Atomic (e : Extent) (x : Exec α) : Prop :=
  ∀ s fault s', x s = .error fault s' → s.Changes e s'

theorem atomic_of_confined {x : Exec α} (hx : Confined e x) : Atomic e x :=
  fun _ _ _ h => confined_of_error hx h

theorem atomic_of_total {x : Exec α} (hx : Total x) : Atomic e x := by
  intro s fault s' h
  obtain ⟨a, s'', hok⟩ := hx s
  rw [hok] at h
  cases h

/-- First what stays within the extent, then what is atomic. -/
theorem atomic_bind {x : Exec α} {f : α → Exec β} (hx : Confined e x)
    (hf : ∀ a, Atomic e (f a)) : Atomic e (x >>= f) := by
  intro s fault s' h
  cases hxs : x s with
  | ok a s₁ =>
      rw [bind_ok hxs] at h
      exact (confined_of_ok hx hxs).trans (hf a s₁ fault s' h)
  | error fault₁ s₁ =>
      rw [bind_error hxs] at h
      cases h
      exact confined_of_error hx hxs

/-- First what is atomic, then what cannot fault. -/
theorem atomic_then {x : Exec α} {f : α → Exec β} (hx : Atomic e x) (hf : ∀ a, Total (f a)) :
    Atomic e (x >>= f) := by
  intro s fault s' h
  cases hxs : x s with
  | ok a s₁ =>
      rw [bind_ok hxs] at h
      obtain ⟨b, s₂, hfs⟩ := hf a s₁
      rw [hfs] at h
      cases h
  | error fault₁ s₁ =>
      rw [bind_error hxs] at h
      cases h
      exact hx s fault s' hxs

theorem atomic_ite {c : Prop} [Decidable c] {x y : Exec α} (hx : Atomic e x)
    (hy : Atomic e y) : Atomic e (if c then x else y) := by
  split
  · exact hx
  · exact hy

/-! ## Instructions -/

@[simp]
theorem atomic_setReg (r : Nat) (v : Value) : Atomic e (setReg r v) :=
  atomic_bind (confined_cell r) fun ref => atomic_of_total (total_writeCell ref v)

@[simp]
theorem atomic_assign (a : Nat) {x : Exec Value} (hx : Confined e x) : Atomic e (assign a x) :=
  atomic_bind hx fun v => atomic_then (atomic_setReg a v) fun _ => total_pure _

@[simp]
theorem atomic_setUpvalue (a b : Nat) : Atomic e (Exec.setUpvalue a b) := by
  refine atomic_bind (confined_reg a) fun v => atomic_bind (confined_upvalueCell b) fun ref => ?_
  exact atomic_of_total (total_bind (total_writeCell ref v) fun _ => total_pure _)

/-- A nil key is found before the table is written. -/
@[simp]
theorem atomic_setField (action : Action) (target k v : Value) :
    Atomic e (setField action target k v) := by
  refine atomic_bind (confined_tableOf action target) fun ref =>
    atomic_bind (confined_readTable ref) fun t => ?_
  split
  · exact atomic_of_total (total_bind (total_writeTable ref _) fun _ => total_pure _)
  · exact atomic_of_confined (confined_throw _)

@[simp]
theorem atomic_setUpvalueField (a key : Nat) {value : Exec Value} (hvalue : Confined e value) :
    Atomic e (setUpvalueField a key value) := by
  refine atomic_bind (confined_upvalue a) fun target =>
    atomic_bind (confined_constant key) fun k =>
      atomic_ite ?_ (atomic_of_confined (confined_throw _))
  exact atomic_bind hvalue fun v => atomic_setField _ target k v

@[simp]
theorem atomic_setRegisterField (a : Nat) {key value : Exec Value} (hkey : Confined e key)
    (hvalue : Confined e value) : Atomic e (setRegisterField a key value) :=
  atomic_bind (confined_reg a) fun target => atomic_bind hkey fun k =>
    atomic_bind hvalue fun v => atomic_setField _ target k v

/-- All values are read before the first entry is written, and integer keys are
never nil. -/
@[simp]
theorem atomic_setList (i : Instruction) : Atomic e (Exec.setList i) := by
  refine atomic_bind (confined_extendedC i) fun offset =>
    atomic_ite (atomic_of_confined (confined_pure _)) ?_
  refine atomic_bind (confined_reg _) fun target => atomic_bind (confined_tableOf _ _) fun ref =>
    atomic_bind (confined_regs _ _) fun values => atomic_bind (confined_readTable ref) fun t => ?_
  exact atomic_of_total (total_bind (total_writeTable ref _) fun _ => total_pure _)

@[simp]
theorem atomic_createTable (i : Instruction) : Atomic e (createTable i) :=
  atomic_bind (confined_extendedC i) fun _ => atomic_assign _ (confined_newTable _)

@[simp]
theorem atomic_testSet (a b : Nat) (expected : Bool) : Atomic e (Exec.testSet a b expected) := by
  refine atomic_bind (confined_reg b) fun v => atomic_ite ?_ (atomic_assign a (confined_pure v))
  exact atomic_of_total (total_bind total_skip fun _ => total_pure _)

/-- Any other instruction has changed nothing when it faults. -/
theorem atomic_execute (i : Instruction) {op : Opcode} (hop : op.writesEarly = false)
    (hcall : op ≠ .call) : Atomic .nothing (i.execute op) := by
  cases op
  case loadNil | self | forLoop => exact absurd hop (by decide)
  case call => exact absurd rfl hcall
  case loadFalseSkip =>
    exact atomic_then (atomic_setReg _ _) fun _ => total_bind total_skip fun _ => total_pure _
  case close => exact atomic_of_total (total_bind (total_close _) fun _ => total_pure _)
  case getField =>
    refine atomic_assign _ (confined_bind (confined_reg _) fun source => ?_)
    simp
  case eq | lt | le | eqK | eqI | ltI | leI | gtI | geI | test =>
    refine atomic_of_confined (confined_skipUnless _ ?_)
    simp
  all_goals simp [Instruction.execute, Exec.concat, atomic_of_confined]

/-- An instruction that writes early writes registers only. -/
theorem confined_execute_early (i : Instruction) {op : Opcode} (hop : op.writesEarly)
    (he : e ≠ .nothing) : Confined e (i.execute op) := by
  cases op
  case loadNil | self | forLoop => simp [Instruction.execute, he]
  all_goals exact absurd hop (by decide)

/-- A call of what can be called, or of a register that does not exist, only
reads registers. -/
theorem call_error {a b c : Nat} {s s' : Scope} {fault : Fault}
    (hcallable : ∀ v, s.frame.register? s.heap a = some v → v.isCallable)
    (h : Exec.call a b c s = .error fault s') : s.Changes .nothing s' := by
  cases hv : s.frame.register? s.heap a with
  | none =>
      rw [Exec.call, bind_error (reg_none hv)] at h
      cases h
      exact .refl _ s
  | some v =>
      rw [Exec.call, bind_ok (reg_some hv), if_pos (hcallable v hv)] at h
      exact atomic_of_confined (by simp) s fault s' h

end Exec

/-! ## Steps -/

/-- What an instruction that faults has changed by then: nothing, or registers if
it is one that writes early. -/
theorem Machine.attempt_error_changes {m m' : Machine} {f f' : Frame} {i : Instruction}
    {fault : Fault} {e : Extent}
    (hcall : i.opcode? = some .call →
      ∀ v, f.register? m.heap i.a.toNat = some v → v.isCallable)
    (he : e = .nothing → ∀ op, i.opcode? = some op → op.writesEarly = false)
    (h : m.attempt f i = (.error fault, m', f')) :
    Scope.Changes e ⟨f, m.heap⟩ ⟨f', m'.heap⟩ := by
  rcases attempt_error_cases h with ⟨rfl, rfl, -⟩ | ⟨op, s, hop, hx, rfl, rfl⟩
  · exact .refl e _
  have hpc : Scope.Changes e ⟨f, m.heap⟩ ⟨{ f with pc := f.pc + 1 }, m.heap⟩ :=
    .setPc e ⟨f, m.heap⟩ (f.pc + 1)
  refine hpc.trans ?_
  by_cases hearly : op.writesEarly
  · refine Exec.confined_of_error (Exec.confined_execute_early i hearly ?_) hx
    intro hnothing
    exact absurd hearly (Bool.eq_false_iff.mp (he hnothing op hop))
  · refine Scope.Changes.of_nothing ?_ e
    by_cases hopcall : op = .call
    · subst hopcall
      exact Exec.call_error (hcall hop) hx
    · exact Exec.atomic_execute i (Bool.eq_false_iff.mpr hearly) hopcall _ _ _ hx

/-- **A fault leaves no instruction half done.** Whatever the machine, the
activation and the instruction, save for a call of a value that cannot be called:
if the instruction faults, the run ends with that fault, every table there is and
every cell that is not a register of the activation are as before, and unless the
instruction is `LoadNil`, `Self` or `ForLoop`, so is every register. -/
theorem Machine.attempt_fault_keeps_heap {m m' : Machine} {f f' : Frame} {i : Instruction}
    {fault : Fault}
    (hcall : i.opcode? = some .call →
      ∀ v, f.register? m.heap i.a.toNat = some v → v.isCallable)
    (h : m.attempt f i = (.error fault, m', f')) :
    (∀ (host : Host) (callers : List Caller), f.proto.code[f.pc]? = some i →
      ∃ final : Machine, Running.step host ⟨m, f, callers⟩ = .finished final (.error fault) ∧
        final.heap = m'.heap) ∧
    (∀ ref < m.heap.tables.size, m'.heap.table ref = m.heap.table ref) ∧
    (∀ x, x ∉ f.registers → m'.heap.cell x = m.heap.cell x) ∧
    f'.registers = f.registers ∧ f'.upvalues = f.upvalues ∧
    (i.opcode? ≠ some .loadNil → i.opcode? ≠ some .self → i.opcode? ≠ some .forLoop →
      ∀ r, f'.register? m'.heap r = f.register? m.heap r) := by
  have hregisters : Scope.Changes .registers ⟨f, m.heap⟩ ⟨f', m'.heap⟩ :=
    attempt_error_changes hcall nofun h
  refine ⟨?_, hregisters.table id, hregisters.cell, hregisters.registers_eq,
    hregisters.upvalues_eq, ?_⟩
  · intro host callers hcode
    rw [Running.step_of_attempt_error (r := ⟨m, f, callers⟩) hcode h]
    exact ⟨_, rfl, heap_repeat_leave m' _⟩
  · intro hloadNil hself hforLoop r
    have hnothing : Scope.Changes .nothing ⟨f, m.heap⟩ ⟨f', m'.heap⟩ := by
      refine attempt_error_changes hcall ?_ h
      intro _ op hop
      refine Bool.eq_false_iff.mpr fun hearly => ?_
      rcases op.writesEarly_iff.mp hearly with rfl | rfl | rfl
      · exact hloadNil hop
      · exact hself hop
      · exact hforLoop hop
    have hcell : m'.heap.cell = m.heap.cell := funext fun x => hnothing.cell x id
    rw [Frame.register?, Frame.register?, hnothing.registers_eq, hcell]

/-- An activation with a table in R[0] and the value 5 in R[1]. -/
def Frame.listing : Frame where
  proto := { code := #[.ofABC .setList 0 2 0 false] }
  registers := [0, 1]
  upvalues := []
  fileUpvalues := 0
  pc := 0

/-- `SetList` with two values, of which only the first is there, leaves the table
as it is. -/
theorem Machine.attempt_fault_keeps_heap_listing :
    ∃ m' f', attempt { heap := ⟨#[.table 0, .int 5], #[.empty], #[]⟩ } .listing
        (.ofABC .setList 0 2 0 false)
          = (.error (.outOfRange .register 2 2), m', f') ∧
      m'.heap.table 0 = .empty ∧ Frame.listing.register? m'.heap 1 = some (.int 5) := by
  have h : attempt { heap := ⟨#[.table 0, .int 5], #[.empty], #[]⟩ } .listing
        (.ofABC .setList 0 2 0 false) = (.error (.outOfRange .register 2 2), _, _) := rfl
  obtain ⟨-, htables, -, hregisters, -, hregister⟩ := attempt_fault_keeps_heap (by decide) h
  refine ⟨_, _, h, htables 0 (by decide), ?_⟩
  exact hregister (by decide) (by decide) (by decide) 1

end LuaBytecode
