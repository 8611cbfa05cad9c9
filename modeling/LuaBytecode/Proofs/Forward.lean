import Mathlib
import LuaBytecode.Proofs.Actions
import LuaBytecode.Proofs.Effects

/-! # Instructions that go forward

The place in the code moves behind an instruction before it is carried out. After
that only jumps can move it back, and of these only `Jmp` and `ForLoop` have a distance
that can be negative. All other instructions leave the place where it is or move it
further on.
-/

namespace LuaBytecode

/-- The instruction cannot jump back to itself or before. -/
def Instruction.Forward (i : Instruction) : Prop :=
  (i.opcode? = some .jmp → 0 ≤ i.sj) ∧ (i.opcode? = some .forLoop → i.bx = 0)

instance (i : Instruction) : Decidable i.Forward :=
  inferInstanceAs (Decidable (_ ∧ _))

/-- How much of its code an activation has before it. -/
def Frame.left (f : Frame) : Nat := f.proto.code.size - f.pc

theorem Frame.left_moved_le (f : Frame) {pc : Nat} (h : f.pc ≤ pc) :
    Frame.left { f with pc } ≤ f.left :=
  Nat.sub_le_sub_left h _

namespace Exec

variable {α β : Type}

/-- The action does not move back in the code, whether it succeeds or not. -/
def Advances (x : Exec α) : Prop := ∀ s : Scope, (x.after s).frame.left ≤ s.frame.left

theorem advances_of_ok {x : Exec α} (hx : Advances x) {s s' : Scope} {a : α}
    (h : x s = .ok a s') : s'.frame.left ≤ s.frame.left := by
  rw [← after_ok h]
  exact hx s

theorem advances_of_error {x : Exec α} (hx : Advances x) {s s' : Scope} {fault : Fault}
    (h : x s = .error fault s') : s'.frame.left ≤ s.frame.left := by
  rw [← after_error h]
  exact hx s

theorem advances_bind {x : Exec α} {f : α → Exec β} (hx : Advances x)
    (hf : ∀ a, Advances (f a)) : Advances (x >>= f) := by
  intro s
  cases h : x s with
  | ok a s' =>
      have hafter : (x >>= f).after s = (f a).after s' := by rw [after, after, bind_ok h]
      rw [hafter]
      exact (hf a s').trans (advances_of_ok hx h)
  | error fault s' =>
      rw [after_error (bind_error h)]
      exact advances_of_error hx h

theorem advances_lookup (what : Indexed) (xs : List α) (i : Nat) :
    Advances (lookup what xs i) := by
  intro s
  cases h : xs[i]? with
  | some a => rw [after_ok (lookup_some h s)]
  | none => rw [after_error (lookup_none h s)]

theorem advances_constant (i : Nat) : Advances (constant i) := by
  intro s
  unfold after constant
  cases s.frame.proto.constants[i]? <;> exact Nat.le_refl _

theorem advances_tableOf (action : Action) (v : Value) : Advances (tableOf action v) := by
  intro s
  cases v <;> exact Nat.le_refl _

theorem advances_ofExcept (x : Except Fault α) : Advances (ofExcept x) := by
  intro s
  cases x <;> exact Nat.le_refl _

theorem advances_composed : Composed Advances where
  pure _ _ := Nat.le_refl _
  bind := advances_bind
  cell _ s := advances_lookup _ _ _ s
  upvalueCell _ s := advances_lookup _ _ _ s

theorem advances_createClosure (bx : Nat) : Advances (createClosure bx) := by
  intro s
  refine advances_bind (advances_lookup .prototype s.frame.proto.protos bx) (fun child => ?_) s
  exact advances_bind (advances_composed.captureAll _) fun upvalues _ => Nat.le_refl _

theorem advances_extraArg : Advances extraArg := by
  intro s
  unfold after extraArg
  cases s.frame.proto.code[s.frame.pc]? with
  | some word => exact s.frame.left_moved_le (Nat.le_succ _)
  | none => exact Nat.le_refl _

theorem advances_jump {distance : Int} (hdistance : 0 ≤ distance) : Advances (jump distance) := by
  intro s
  have htarget : ¬ (s.frame.pc : Int) + distance < 0 := by omega
  have hok : jump distance s = .ok () _ := if_neg htarget
  rw [after_ok hok]
  refine s.frame.left_moved_le ?_
  omega

theorem advances_inherited : Inherited Advances where
  toComposed := advances_composed
  readCell _ _ := Nat.le_refl _
  writeCell _ _ _ := Nat.le_refl _
  constant := advances_constant
  tableOf := advances_tableOf
  readTable _ _ := Nat.le_refl _
  writeTable _ _ _ := Nat.le_refl _
  newTable _ _ := Nat.le_refl _
  createClosure := advances_createClosure
  close _ _ := Nat.le_refl _
  skip s := s.frame.left_moved_le (Nat.le_succ _)
  extraArg := advances_extraArg
  jump := advances_jump
  wrongKey _ _ _ _ := Nat.le_refl _
  nilKey _ _ := Nat.le_refl _

theorem advances_returnFrom (a b : Nat) : Advances (returnFrom a b) :=
  fun s => advances_bind (advances_inherited.regs a _) (fun _ _ => Nat.le_refl _) s

/-- An instruction that does not jump back goes forward. -/
theorem advances_execute {i : Instruction} (hforward : i.Forward) {op : Opcode}
    (hop : i.opcode? = some op) : Advances (i.execute op) := by
  obtain ⟨hjmp, hloop⟩ := hforward
  refine advances_inherited.execute i op ?_ ?_ advances_returnFrom
    (fun _ _ _ => advances_ofExcept _) fun _ _ _ => Nat.le_refl _
  · rintro rfl
    exact advances_jump (hjmp hop)
  · rintro rfl
    exact advances_jump (by rw [hloop hop]; rfl)

end Exec

end LuaBytecode
