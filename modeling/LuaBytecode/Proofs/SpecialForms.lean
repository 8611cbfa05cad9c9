import Mathlib
import LuaBytecode.Proofs.Effects
import LuaBytecode.Proofs.RawEquality

/-! # Special forms of instructions

Arithmetic and comparisons come in a general form, whose operands are registers, and in special
forms, in which one operand is a constant or part of the instruction. The special forms are
carried out apart from the general ones, and comparisons with a part of the instruction by a
comparison of their own, which takes everything for a number. All the same a special form does
what the general form would do if the operand were in a register. Only `EqI` is different from
`Eq`, and only on values that are not numbers.
-/

namespace LuaBytecode

/-! ## Operands -/

/-- Where an operand of an instruction comes from. -/
inductive Operand where
  | register (index : Nat)
  | constant (index : Nat)
  | immediate (i : Int64)

namespace Operand

/-- The operand, or the fault of its look-up. -/
def value (s : Scope) : Operand → Except Fault Value
  | .register index => (s.frame.register? s.heap index).elim
      (.error (.outOfRange .register index s.frame.registers.length)) .ok
  | .constant index => s.frame.proto.constants[index]?.elim
      (.error (.outOfRange .constant index s.frame.proto.constants.size)) fun k =>
        .ok (.ofConstant k)
  | .immediate i => .ok (.int i)

/-- The register `r` of `t` has what the operand is in `s`. An operand that is a register itself
is taken from the same place. -/
def HeldBy (s t : Scope) (r : Nat) : Operand → Prop
  | .register index => r = index ∧ t.frame.register? t.heap r = s.frame.register? s.heap index
  | .constant index => ∃ k, s.frame.proto.constants[index]? = some k ∧
      t.frame.register? t.heap r = some (.ofConstant k)
  | .immediate i => t.frame.register? t.heap r = some (.int i)

end Operand

/-- The operation on operands of which one may be missing. -/
def ArithOp.applyTo (op : ArithOp) (v w : Except Fault Value) : Except Fault Value := do
  op.apply (← v) (← w)

/-- A test of operands of which one may be missing. -/
def testOperands (test : Value → Value → Bool) (v w : Except Fault Value) : Except Fault Bool := do
  return test (← v) (← w)

namespace Exec

variable {s t : Scope}

theorem reg_eq (s : Scope) (r : Nat) : reg r s = ofExcept ((Operand.register r).value s) s := by
  rw [Operand.value]
  cases h : s.frame.register? s.heap r with
  | some v => exact reg_some h
  | none => exact reg_none h

theorem constant_eq (s : Scope) (index : Nat) :
    constant index s = ofExcept ((Operand.constant index).value s) s := by
  rw [Operand.value]
  cases h : s.frame.proto.constants[index]? with
  | some k => exact constant_some h
  | none => exact constant_none h

theorem reg_eq_of_heldBy {r : Nat} {o : Operand}
    (hlength : t.frame.registers.length = s.frame.registers.length) (h : o.HeldBy s t r) :
    reg r t = ofExcept (o.value s) t := by
  cases o with
  | register index =>
      obtain ⟨rfl, hsame⟩ := h
      rw [reg_eq, Operand.value, Operand.value, hsame, hlength]
  | constant index =>
      obtain ⟨k, hk, hr⟩ := h
      rw [reg_some hr, Operand.value, hk]
      rfl
  | immediate i => exact reg_some h

/-! ## Instructions with two operands -/

theorem bind_ofExcept {α β : Type} {x : Exec α} {v : Except Fault α} {f : α → Exec β}
    {w : α → Except Fault β} (hx : x s = ofExcept v s)
    (hf : ∀ a, v = .ok a → f a s = ofExcept (w a) s) : (x >>= f) s = ofExcept (v >>= w) s := by
  cases v with
  | ok a => rw [bind_ok hx, hf a rfl]; rfl
  | error fault => rw [bind_error hx]; rfl

theorem binary_eq {op : ArithOp} {x y : Exec Value} {v w : Except Fault Value}
    (hx : x s = ofExcept v s) (hy : y s = ofExcept w s) :
    binary op x y s = ofExcept (op.applyTo v w) s :=
  bind_ofExcept hx fun _ _ => bind_ofExcept hy fun _ _ => rfl

theorem compareWith_eq {a : Nat} {y : Exec Value} {v w : Except Fault Value}
    {test : Value → Value → Bool} (hx : reg a s = ofExcept v s) (hy : y s = ofExcept w s) :
    compareWith a y test s = ofExcept (testOperands test v w) s :=
  bind_ofExcept hx fun _ _ => bind_ofExcept hy fun _ _ => rfl

theorem assign_congr {x y : Exec Value} (a : Nat) (h : x s = y s) :
    assign a x s = assign a y s := by
  show EStateM.bind x _ s = EStateM.bind y _ s
  unfold EStateM.bind
  rw [h]

theorem skipUnless_congr {x y : Exec Bool} (expected : Bool) (h : x s = y s) :
    skipUnless expected x s = skipUnless expected y s := by
  show EStateM.bind x _ s = EStateM.bind y _ s
  unfold EStateM.bind
  rw [h]

/-- A comparison with part of the instruction, where it comes to `test` on the register. -/
theorem compareImmediate_eq {i : Instruction} {met : Option Ordering → Bool} {test : Value → Bool}
    (h : ∀ v, s.frame.register? s.heap i.a.toNat = some v →
      met (v.compareImmediate? (Int64.ofInt i.sb)) = test v) :
    compareImmediate i met s
      = ofExcept (do return test (← (Operand.register i.a.toNat).value s)) s := by
  refine bind_ofExcept (reg_eq s _) fun v hv => ?_
  have hregister : s.frame.register? s.heap i.a.toNat = some v := by
    rw [Operand.value] at hv
    cases hr : s.frame.register? s.heap i.a.toNat with
    | some w => rw [hr] at hv; cases hv; rfl
    | none => rw [hr] at hv; cases hv
  show EStateM.Result.ok _ s = .ok _ s
  rw [h v hregister]

/-- Each action in its state puts the same value into register `a`, or both stop with the same
fault. -/
def GiveSame (a : Nat) (x y : Exec Next) (s t : Scope) : Prop :=
  ∃ v : Except Fault Value, x s = assign a (ofExcept v) s ∧ y t = assign a (ofExcept v) t

/-- Each action in its state passes over the next instruction, or neither does, or both stop with
the same fault. -/
def SkipSame (expected : Bool) (x y : Exec Next) (s t : Scope) : Prop :=
  ∃ met : Except Fault Bool,
    x s = skipUnless expected (ofExcept met) s ∧ y t = skipUnless expected (ofExcept met) t

end Exec

/-! ## Comparisons with integers -/

namespace Value

theorem compare?_int (v : Value) (i : Int64) : v.compare? (.int i) = v.compareImmediate? i := by
  cases v <;> rfl

/-- A comparison from the other side gives the opposite. -/
theorem int_compare? (v : Value) (i : Int64) :
    (Value.int i).compare? v = (v.compareImmediate? i).map Ordering.swap := by
  have hswap (a : Number) : Number.compare? (.int i) a = (a.compare? (.int i)).map Ordering.swap := by
    cases a with
    | int j =>
        rw [Number.compare?, Number.compare?, Option.map_some, ← cmp_eq_compare, ← cmp_eq_compare,
          cmp_swap]
    | float f =>
        rw [Number.compare?, Number.compare?]
        cases Binary64.compareInt? i f with
        | none => rfl
        | some o => cases o <;> rfl
  rw [compareImmediate?, ← hswap]
  cases v <;> rfl

theorem int_lessThan (v : Value) (i : Int64) :
    (v.compareImmediate? i == some .gt) = (Value.int i).lessThan v := by
  rw [lessThan, int_compare?]
  cases v.compareImmediate? i with
  | none => rfl
  | some o => cases o <;> rfl

theorem int_lessEqual (v : Value) (i : Int64) :
    (v.compareImmediate? i == some .gt || v.compareImmediate? i == some .eq)
      = (Value.int i).lessEqual v := by
  rw [lessEqual, int_compare?]
  cases v.compareImmediate? i with
  | none => rfl
  | some o => cases o <;> rfl

theorem rawEquals_int {v : Value} {a : Number} (hv : v.number? = some a) (i : Int64) :
    (v.compareImmediate? i == some .eq) = v.rawEquals (.int i) := by
  have hequal := rawEquals_toValue a (.int i)
  rw [← eq_toValue_of_number? hv] at hequal
  rw [Bool.eq_iff_iff, beq_iff_eq, compareImmediate?, numberOrZero, hv]
  exact hequal.symm

end Value

/-! ## Special and general forms -/

/-- The general form of a special form of arithmetic. -/
def Opcode.generalArithmetic? : Opcode → Option Opcode
  | .addK | .addI => some .add
  | .subK => some .sub
  | .mulK => some .mul
  | .modK => some .mod
  | .powK => some .pow
  | .divK => some .div
  | .idivK => some .idiv
  | .bandK => some .band
  | .borK => some .bor
  | .bxorK => some .bxor
  | .shlI => some .shl
  | .shrI => some .shr
  | _ => none

/-- The general form of a special form of comparison. -/
def Opcode.generalComparison? : Opcode → Option Opcode
  | .eqK | .eqI => some .eq
  | .ltI | .gtI => some .lt
  | .leI | .geI => some .le
  | _ => none

/-- What a general comparison tests. -/
def Opcode.test? : Opcode → Option (Value → Value → Bool)
  | .eq => some Value.rawEquals
  | .lt => some Value.lessThan
  | .le => some Value.lessEqual
  | _ => none

namespace Instruction

/-- The operands of special arithmetic, the left one first. -/
def arithmeticOperands (i : Instruction) : Opcode → Operand × Operand
  | .addI | .shrI => (.register i.b.toNat, .immediate (Int64.ofInt i.sc))
  | .shlI => (.immediate (Int64.ofInt i.sc), .register i.b.toNat)
  | _ => (.register i.b.toNat, .constant i.c.toNat)

/-- The operands of a special comparison, the lower one first. -/
def comparisonOperands (i : Instruction) : Opcode → Operand × Operand
  | .eqK => (.register i.a.toNat, .constant i.b.toNat)
  | .gtI | .geI => (.immediate (Int64.ofInt i.sb), .register i.a.toNat)
  | _ => (.register i.a.toNat, .immediate (Int64.ofInt i.sb))

open Exec

variable {i j : Instruction} {s t : Scope} {op general : Opcode} {v w : Except Fault Value}

/-- Special arithmetic is the operation of the general form on its own operands. -/
theorem execute_specialArithmetic (hop : op.generalArithmetic? = some general) (i : Instruction)
    (s : Scope) :
    ∃ arith, ArithOp.ofOpcode? general = some arith ∧
      i.execute op s = assign i.a.toNat (Exec.ofExcept (arith.applyTo
        ((i.arithmeticOperands op).1.value s) ((i.arithmeticOperands op).2.value s))) s := by
  cases op
  case addI | shrI =>
    cases hop
    exact ⟨_, rfl, assign_congr _ (binary_eq (reg_eq s _) rfl)⟩
  case shlI =>
    cases hop
    exact ⟨_, rfl, assign_congr _ (binary_eq rfl (reg_eq s _))⟩
  case addK | subK | mulK | modK | powK | divK | idivK | bandK | borK | bxorK =>
    cases hop
    exact ⟨_, rfl, assign_congr _ (binary_eq (reg_eq s _) (constant_eq s _))⟩
  all_goals cases hop

theorem execute_generalArithmetic {arith : ArithOp} (hop : op.generalArithmetic? = some general)
    (harith : ArithOp.ofOpcode? general = some arith) (hb : reg j.b.toNat t = Exec.ofExcept v t)
    (hc : reg j.c.toNat t = Exec.ofExcept w t) :
    j.execute general t = assign j.a.toNat (Exec.ofExcept (arith.applyTo v w)) t := by
  have hexecute : j.execute general
      = assign j.a.toNat (binary arith (reg j.b.toNat) (reg j.c.toNat)) := by
    cases op <;> cases hop <;> cases harith <;> rfl
  rw [hexecute]
  exact assign_congr _ (binary_eq hb hc)

/-- A special comparison is the test of the general form on its own operands, `EqI` only if the
register has a number. -/
theorem execute_specialComparison (hop : op.generalComparison? = some general) (i : Instruction)
    {s : Scope} (hnumber : op = .eqI → ∀ v, s.frame.register? s.heap i.a.toNat = some v →
      ∃ a, v.number? = some a) :
    ∃ test, general.test? = some test ∧
      i.execute op s = skipUnless i.k (Exec.ofExcept (testOperands test
        ((i.comparisonOperands op).1.value s) ((i.comparisonOperands op).2.value s))) s := by
  cases op
  case eqK =>
    cases hop
    exact ⟨_, rfl, skipUnless_congr _ (compareWith_eq (reg_eq s _) (constant_eq s _))⟩
  case eqI =>
    cases hop
    refine ⟨_, rfl, skipUnless_congr _ (compareImmediate_eq fun v hv => ?_)⟩
    obtain ⟨a, ha⟩ := hnumber rfl v hv
    exact Value.rawEquals_int ha _
  case ltI =>
    cases hop
    refine ⟨_, rfl, skipUnless_congr _ (compareImmediate_eq fun v _ => ?_)⟩
    rw [Value.lessThan, Value.compare?_int]
  case leI =>
    cases hop
    refine ⟨_, rfl, skipUnless_congr _ (compareImmediate_eq fun v _ => ?_)⟩
    rw [Value.lessEqual, Value.compare?_int]
  case gtI =>
    cases hop
    exact ⟨_, rfl, skipUnless_congr _ (compareImmediate_eq fun v _ => Value.int_lessThan v _)⟩
  case geI =>
    cases hop
    exact ⟨_, rfl, skipUnless_congr _ (compareImmediate_eq fun v _ => Value.int_lessEqual v _)⟩
  all_goals cases hop

theorem execute_generalComparison {test : Value → Value → Bool}
    (htest : general.test? = some test) (ha : reg j.a.toNat t = Exec.ofExcept v t)
    (hb : reg j.b.toNat t = Exec.ofExcept w t) :
    j.execute general t = skipUnless j.k (Exec.ofExcept (testOperands test v w)) t := by
  have hexecute : j.execute general
      = skipUnless j.k (compareWith j.a.toNat (reg j.b.toNat) test) := by
    cases general <;> cases htest <;> rfl
  rw [hexecute]
  exact skipUnless_congr _ (compareWith_eq ha hb)

/-- **Special forms agree with general ones.** Let `i` be a special form of arithmetic that is
carried out in `s`, and `j` the general form, carried out in a state `t` with as many registers,
where the registers of `j` have what the operands of `i` are in `s`. Then both put the same value
into the same register, or both stop with the same fault. Likewise special and general
comparisons pass over the next instruction alike, whatever values they meet, `EqI` if it meets a
number. -/
theorem special_forms_agree {i j : Instruction} {s t : Scope}
    (hlength : t.frame.registers.length = s.frame.registers.length) :
    (∀ op general, op.generalArithmetic? = some general → j.a = i.a →
      (i.arithmeticOperands op).1.HeldBy s t j.b.toNat →
      (i.arithmeticOperands op).2.HeldBy s t j.c.toNat →
      GiveSame i.a.toNat (i.execute op) (j.execute general) s t) ∧
    (∀ op general, op.generalComparison? = some general → j.k = i.k →
      (op = .eqI → ∀ v, s.frame.register? s.heap i.a.toNat = some v →
        ∃ a, v.number? = some a) →
      (i.comparisonOperands op).1.HeldBy s t j.a.toNat →
      (i.comparisonOperands op).2.HeldBy s t j.b.toNat →
      SkipSame i.k (i.execute op) (j.execute general) s t) := by
  constructor
  · intro op general hop ha hleft hright
    obtain ⟨arith, harith, hspecial⟩ := execute_specialArithmetic hop i s
    have hgeneral := execute_generalArithmetic hop harith (reg_eq_of_heldBy hlength hleft)
      (reg_eq_of_heldBy hlength hright)
    rw [ha] at hgeneral
    exact ⟨_, hspecial, hgeneral⟩
  · intro op general hop hk hnumber hleft hright
    obtain ⟨test, htest, hspecial⟩ := execute_specialComparison hop i hnumber
    have hgeneral := execute_generalComparison htest (reg_eq_of_heldBy hlength hleft)
      (reg_eq_of_heldBy hlength hright)
    rw [hk] at hgeneral
    exact ⟨_, hspecial, hgeneral⟩

/-- An activation with the two values in its registers, and the constant 0. -/
def twoRegisters (v w : Value) : Scope where
  frame :=
    { proto := { constants := #[.int 0] }
      registers := [0, 1]
      upvalues := []
      fileUpvalues := 0
      pc := 1 }
  heap := { cells := #[v, w] }

/-- A remainder by the constant 0 stops as the one by a register does, nil lies above the operand
-1 as zero does, and a float is equal to the integer operand. -/
theorem special_forms_agree_zero :
    (GiveSame 0 ((ofABC .modK 0 0 0 false).execute .modK) ((ofABC .mod 0 0 1 false).execute .mod)
        (twoRegisters (.int 7) .nil) (twoRegisters (.int 7) (.int 0)) ∧
      (ofABC .modK 0 0 0 false).execute .modK (twoRegisters (.int 7) .nil)
        = .error .divideByZero (twoRegisters (.int 7) .nil)) ∧
    (SkipSame false ((ofABC .gtI 1 255 0 false).execute .gtI) ((ofABC .lt 0 1 0 false).execute .lt)
        (twoRegisters .nil .nil) (twoRegisters (.int (-1)) .nil) ∧
      Value.lessThan (.int (-1)) .nil = true) ∧
    SkipSame true ((ofABC .eqI 0 5 0 true).execute .eqI) ((ofABC .eq 0 1 0 true).execute .eq)
      (twoRegisters (.float ⟨0x4014000000000000⟩) .nil)
      (twoRegisters (.float ⟨0x4014000000000000⟩) (.int 5)) := by
  have hlength (v w v' w' : Value) : (twoRegisters v' w').frame.registers.length
      = (twoRegisters v w).frame.registers.length := rfl
  refine ⟨⟨?_, rfl⟩, ⟨?_, by decide⟩, ?_⟩
  · obtain ⟨harithmetic, -⟩ := special_forms_agree (i := ofABC .modK 0 0 0 false)
      (j := ofABC .mod 0 0 1 false) (hlength (.int 7) .nil (.int 7) (.int 0))
    exact harithmetic .modK .mod rfl rfl ⟨rfl, rfl⟩ ⟨.int 0, rfl, rfl⟩
  · obtain ⟨-, hcomparison⟩ := special_forms_agree (i := ofABC .gtI 1 255 0 false)
      (j := ofABC .lt 0 1 0 false) (hlength .nil .nil (.int (-1)) .nil)
    exact hcomparison .gtI .lt rfl rfl (fun h => absurd h (by decide)) rfl ⟨rfl, rfl⟩
  · obtain ⟨-, hcomparison⟩ := special_forms_agree (i := ofABC .eqI 0 5 0 true)
      (j := ofABC .eq 0 1 0 true)
      (hlength (.float ⟨0x4014000000000000⟩) .nil (.float ⟨0x4014000000000000⟩) (.int 5))
    refine hcomparison .eqI .eq rfl rfl (fun _ v hv => ?_) ⟨rfl, rfl⟩ rfl
    cases hv
    exact ⟨_, rfl⟩

end Instruction

end LuaBytecode
