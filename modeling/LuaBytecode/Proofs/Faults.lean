import Mathlib
import LuaBytecode.Proofs.Actions
import LuaBytecode.Proofs.Atomicity

/-! # Which faults instructions raise

A fault of an instruction says something true about its operands, or that the
instruction is not supported. Which operations can divide by zero follows from the
arithmetic behind them. The other faults come from around the instructions: from the
limits, from words that are no instructions, from the host and from loading.
-/

namespace LuaBytecode

/-- The operations that divide: quotients and remainders, with a register or a constant as the
divisor. -/
def Opcode.divisions : List Opcode := [.div, .divK, .idiv, .idivK, .mod, .modK]

/-- The faults that instructions with the given operation raise. An index out of range is out of
range, and a value of the wrong type is not of the right one. -/
def Fault.OfInstruction (op : Opcode) : Fault → Prop
  | .typeMismatch _ expected found => found ≠ expected
  | .outOfRange _ index length => index < 0 ∨ (length : Int) ≤ index
  | .nilKey _ => True
  | .divideByZero => op ∈ Opcode.divisions
  | .unimplemented _ => op ∈ Opcode.unsupported
  | _ => False

namespace Exec

variable {α β : Type} {P : Fault → Prop} {op : Opcode}

/-- Every fault that the action can end with is as said. -/
def Raises (P : Fault → Prop) (x : Exec α) : Prop :=
  ∀ ⦃s : Scope⦄ ⦃fault : Fault⦄ ⦃s' : Scope⦄, x s = .error fault s' → P fault

theorem raises_pure (a : α) : Raises P (pure a : Exec α) := by
  intro s fault s' h
  cases h

theorem raises_throw {fault : Fault} (hfault : P fault) : Raises P (throw fault : Exec α) := by
  intro s fault' s' h
  cases h
  exact hfault

theorem raises_bind {x : Exec α} {f : α → Exec β} (hx : Raises P x)
    (hf : ∀ a, Raises P (f a)) : Raises P (x >>= f) := by
  intro s fault s' h
  cases hxs : x s with
  | ok a s₁ =>
      rw [bind_ok hxs] at h
      exact hf a h
  | error fault₁ s₁ =>
      rw [bind_error hxs] at h
      cases h
      exact hx hxs

theorem raises_of_total {x : Exec α} (hx : Total x) : Raises P x := by
  intro s fault s' h
  obtain ⟨a, s₁, hok⟩ := hx s
  rw [hok] at h
  cases h

/-! ## Primitives -/

theorem raises_lookup (what : Indexed) (xs : List α) (i : Nat) :
    Raises (Fault.OfInstruction op) (lookup what xs i) := by
  intro s fault s' h
  cases hi : xs[i]? with
  | some a =>
      rw [lookup_some hi] at h
      cases h
  | none =>
      rw [lookup_none hi] at h
      cases h
      exact .inr (Int.ofNat_le.mpr (List.getElem?_eq_none_iff.mp hi))

theorem raises_cell (r : Nat) : Raises (Fault.OfInstruction op) (cell r) :=
  fun _ _ _ h => raises_lookup _ _ _ h

theorem raises_upvalueCell (i : Nat) : Raises (Fault.OfInstruction op) (upvalueCell i) :=
  fun _ _ _ h => raises_lookup _ _ _ h

theorem raises_readCell (ref : CellRef) : Raises P (readCell ref) :=
  raises_of_total fun _ => ⟨_, _, rfl⟩

theorem raises_writeCell (ref : CellRef) (v : Value) : Raises P (writeCell ref v) :=
  raises_of_total (total_writeCell ref v)

theorem raises_readTable (ref : TableRef) : Raises P (readTable ref) :=
  raises_of_total fun _ => ⟨_, _, rfl⟩

theorem raises_writeTable (ref : TableRef) (t : Table) : Raises P (writeTable ref t) :=
  raises_of_total (total_writeTable ref t)

theorem raises_newTable (t : Table) : Raises P (newTable t) :=
  raises_of_total fun _ => ⟨_, _, rfl⟩

theorem raises_newClosure (c : Closure) : Raises P (newClosure c) :=
  raises_of_total fun _ => ⟨_, _, rfl⟩

theorem raises_close (first : Nat) : Raises P (Exec.close first) :=
  raises_of_total (total_close first)

theorem raises_skip : Raises P skip :=
  raises_of_total total_skip

theorem raises_constant (i : Nat) : Raises (Fault.OfInstruction op) (constant i) := by
  intro s fault s' h
  unfold constant at h
  split at h
  · cases h
  · next hi =>
      cases h
      exact .inr (Int.ofNat_le.mpr (Array.getElem?_eq_none_iff.mp hi))

theorem raises_extraArg : Raises (Fault.OfInstruction op) extraArg := by
  intro s fault s' h
  unfold extraArg at h
  split at h
  · cases h
  · next hi =>
      cases h
      exact .inr (Int.ofNat_le.mpr (Array.getElem?_eq_none_iff.mp hi))

theorem raises_jump (distance : Int) : Raises (Fault.OfInstruction op) (jump distance) := by
  intro s fault s' h
  by_cases htarget : (s.frame.pc : Int) + distance < 0
  · have herror : jump distance s = .error _ s := if_pos htarget
    rw [herror] at h
    cases h
    exact .inl htarget
  · have hok : jump distance s = .ok () _ := if_neg htarget
    rw [hok] at h
    cases h

theorem raises_tableOf (action : Action) (v : Value) :
    Raises (Fault.OfInstruction op) (tableOf action v) := by
  intro s fault s' h
  cases v with
  | table ref => cases h
  | _ =>
      cases h
      exact nofun

theorem raises_ofExcept {x : Except Fault α} (hx : ∀ fault, x = .error fault → P fault) :
    Raises P (ofExcept x) := by
  intro s fault s' h
  cases x with
  | ok a => cases h
  | error fault' =>
      cases h
      exact hx fault rfl

end Exec

/-! ## Arithmetic -/

namespace ArithOp

/-- The operations that a divisor of zero can stop. -/
def divisions : List ArithOp := [.div, .idiv, .mod]

theorem onInts_error {op : ArithOp} {i j : Int64} {fault : Fault}
    (h : op.onInts i j = .error fault) : fault = .divideByZero ∧ op ∈ divisions ∧ j = 0 := by
  cases op with
  | div | idiv | mod =>
      unfold onInts at h
      dsimp only at h
      split at h
      · next hzero =>
          cases h
          exact ⟨rfl, by decide, hzero⟩
      · cases h
  | _ => cases h

theorem onFloats_ne_error (op : ArithOp) (f g : Binary64) (fault : Fault) :
    op.onFloats f g ≠ .error fault := by
  intro h
  cases op <;> cases h

/-- Arithmetic fails on a division of two integers by zero only. -/
theorem apply_error {op : ArithOp} {v w : Value} {fault : Fault}
    (h : op.apply v w = .error fault) :
    fault = .divideByZero ∧ op ∈ divisions ∧ (∃ i, v = .int i) ∧ w = .int 0 := by
  unfold apply at h
  split at h
  · next i j =>
      obtain ⟨hfault, hop, rfl⟩ := onInts_error h
      exact ⟨hfault, hop, ⟨i, rfl⟩, rfl⟩
  · exact absurd h (onFloats_ne_error op _ _ _)

/-- The operations of the machine that divide are those with a division behind them. -/
theorem mem_divisions {op : Opcode} {arith : ArithOp} (hop : ofOpcode? op = some arith)
    (harith : arith ∈ divisions) : op ∈ Opcode.divisions := by
  cases op <;> cases hop <;> revert harith <;> decide

end ArithOp

/-! ## Instructions -/

namespace Exec

theorem raises_composed : Composed (Raises (Fault.OfInstruction op)) where
  pure := raises_pure
  bind := raises_bind
  cell := raises_cell
  upvalueCell := raises_upvalueCell

theorem raises_createClosure (bx : Nat) : Raises (Fault.OfInstruction op) (createClosure bx) := by
  intro s fault s' h
  refine raises_bind (raises_lookup .prototype s.frame.proto.protos bx) (fun child => ?_) h
  exact raises_bind (raises_composed.captureAll _) fun upvalues => raises_newClosure _

theorem raises_inherited : Inherited (Raises (Fault.OfInstruction op)) where
  toComposed := raises_composed
  readCell := raises_readCell
  writeCell := raises_writeCell
  constant := raises_constant
  tableOf := raises_tableOf
  readTable := raises_readTable
  writeTable := raises_writeTable
  newTable := raises_newTable
  createClosure := raises_createClosure
  close := raises_close
  skip := raises_skip
  extraArg := raises_extraArg
  jump _ := raises_jump _
  wrongKey _ _ hk := raises_throw hk
  nilKey _ := raises_throw trivial

theorem raises_storeResults (first wanted : Nat) (results : List Value) :
    Raises (Fault.OfInstruction .call) (storeResults first wanted results) :=
  raises_inherited.storeResults first wanted results

theorem raises_returnFrom (a b : Nat) : Raises (Fault.OfInstruction op) (returnFrom a b) :=
  fun _ _ _ h => raises_bind (raises_inherited.regs a _) (fun _ => raises_pure _) h

/-- An instruction raises no faults but its own. -/
theorem raises_execute (i : Instruction) (op : Opcode) :
    Raises (Fault.OfInstruction op) (i.execute op) := by
  refine raises_inherited.execute i op (fun _ => raises_jump _) (fun _ => raises_jump _)
    raises_returnFrom ?_ fun hop _ => raises_throw hop
  intro arith hop v w
  refine raises_ofExcept fun fault h => ?_
  obtain ⟨rfl, harith, -, -⟩ := ArithOp.apply_error h
  exact ArithOp.mem_divisions hop harith

end Exec

end LuaBytecode
