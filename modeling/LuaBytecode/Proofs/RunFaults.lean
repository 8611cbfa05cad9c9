import Mathlib
import LuaBytecode.Host.Library
import LuaBytecode.Proofs.Budget

/-! # Faults of runs are true

A fault ends all activations of a run, so what it says has to be true of a place that may lie
many calls away from where the run was begun. A run ends with a fault in its last step.
Either the fault comes from around the instructions, and then what it says can be read off
it, or it is that of the instruction which was dispatched in this step. From the operation
of the instruction it follows which faults it can have; for a division by zero its operands
in this state are the two integers.
-/

namespace LuaBytecode

/-! ## Divisions -/

/-- The divisor that a division finds: a constant, or the value of a register. -/
def Running.divisor? (r : Running) (i : Instruction) : Opcode → Option Value
  | .divK | .idivK | .modK => r.frame.proto.constants[i.c.toNat]?.map .ofConstant
  | _ => r.frame.register? r.machine.heap i.c.toNat

/-- What the next instruction sees: the place in the code is behind it already. -/
def Running.scope (r : Running) : Scope :=
  ⟨{ r.frame with pc := r.frame.pc + 1 }, r.machine.heap⟩

/-- The value of a register of the topmost activation. -/
abbrev Running.register? (r : Running) (a : Nat) : Option Value :=
  r.frame.register? r.machine.heap a

namespace Exec

/-- Looking for an operand finds the value, if there is one, and changes nothing. If it fails, no
division does. -/
def Fetches (x : Exec Value) (s : Scope) (v? : Option Value) : Prop :=
  (∃ v, v? = some v ∧ x s = .ok v s) ∨ ∃ fault, fault ≠ .divideByZero ∧ x s = .error fault s

theorem fetches_reg (s : Scope) (n : Nat) :
    Fetches (reg n) s (s.frame.register? s.heap n) := by
  cases h : s.frame.register? s.heap n with
  | some v => exact .inl ⟨v, rfl, reg_some h⟩
  | none =>
      right
      exact ⟨.outOfRange .register n _, nofun, reg_none h⟩

theorem fetches_constant (s : Scope) (n : Nat) :
    Fetches (constant n) s (s.frame.proto.constants[n]?.map .ofConstant) := by
  unfold Fetches constant
  cases s.frame.proto.constants[n]? with
  | some k => exact .inl ⟨.ofConstant k, rfl, rfl⟩
  | none =>
      right
      exact ⟨.outOfRange .constant n _, nofun, rfl⟩

/-- To store a value does not divide. -/
theorem store_ne_divideByZero {a : Nat} {v : Value} {s s' : Scope} :
    (setReg a v >>= fun _ => pure Next.proceed) s ≠ .error .divideByZero s' := by
  intro h
  have hstore : Raises (Fault.OfInstruction .move) (setReg a v >>= fun _ => pure Next.proceed) :=
    raises_bind (raises_inherited.setReg a v) fun _ => raises_pure _
  have hmove : Opcode.move ∈ Opcode.divisions := hstore h
  revert hmove
  decide

/-- If a division by zero stops an instruction, it has found two integers. -/
theorem assign_binary_divideByZero {a : Nat} {op : ArithOp} {lhs rhs : Exec Value} {s s' : Scope}
    {v? w? : Option Value} (hlhs : Fetches lhs s v?) (hrhs : Fetches rhs s w?)
    (h : assign a (binary op lhs rhs) s = .error .divideByZero s') :
    (∃ i, v? = some (.int i)) ∧ w? = some (.int 0) := by
  unfold assign binary at h
  rcases hlhs with ⟨v, rfl, hl⟩ | ⟨fault, hfault, hl⟩
  · rcases hrhs with ⟨w, rfl, hr⟩ | ⟨fault, hfault, hr⟩
    · cases hx : op.apply v w with
      | error fault =>
          obtain ⟨-, -, ⟨i, rfl⟩, rfl⟩ := ArithOp.apply_error hx
          exact ⟨⟨i, rfl⟩, rfl⟩
      | ok result =>
          have hbinary : (lhs >>= fun v => rhs >>= fun w => ofExcept (op.apply v w)) s
              = .ok result s := by
            rw [bind_ok hl, bind_ok hr, hx]
            rfl
          rw [bind_ok hbinary] at h
          exact absurd h store_ne_divideByZero
    · have hbinary : (lhs >>= fun v => rhs >>= fun w => ofExcept (op.apply v w)) s
          = .error fault s := by rw [bind_ok hl, bind_error hr]
      rw [bind_error hbinary] at h
      cases h
      exact absurd rfl hfault
  · rw [bind_error (bind_error hl)] at h
    cases h
    exact absurd rfl hfault

end Exec

open Exec

/-- A division by zero has met two integers. -/
theorem Running.divideByZero_operands {r : Running} {i : Instruction} {op : Opcode} {s : Scope}
    (h : i.execute op r.scope = .error .divideByZero s) :
    op ∈ Opcode.divisions ∧
      (∃ x, r.frame.register? r.machine.heap i.b.toNat = some (.int x)) ∧
      r.divisor? i op = some (.int 0) := by
  have hop : op ∈ Opcode.divisions := raises_execute i op h
  refine ⟨hop, ?_⟩
  have hb := fetches_reg r.scope i.b.toNat
  have hc := fetches_reg r.scope i.c.toNat
  have hk := fetches_constant r.scope i.c.toNat
  simp only [Opcode.divisions, List.mem_cons, List.not_mem_nil, or_false] at hop
  rcases hop with rfl | rfl | rfl | rfl | rfl | rfl
  · exact assign_binary_divideByZero hb hc h
  · exact assign_binary_divideByZero hb hk h
  · exact assign_binary_divideByZero hb hc h
  · exact assign_binary_divideByZero hb hk h
  · exact assign_binary_divideByZero hb hc h
  · exact assign_binary_divideByZero hb hk h

/-! ## Faults from around the instructions -/

/-- The faults that need no instruction to be true. -/
def Fault.OfMachine : Fault → Prop
  | .typeMismatch _ expected found => found ≠ expected
  | .outOfRange _ index length => index < 0 ∨ (length : Int) ≤ index
  | .nilKey _ | .stackOverflow | .budgetExceeded _ | .host _ => True
  | _ => False

/-- What an instruction raises needs no instruction to be true, apart from two faults. -/
theorem Fault.OfInstruction.cases {op : Opcode} {fault : Fault} (h : fault.OfInstruction op) :
    fault.OfMachine ∨ (fault = .divideByZero ∧ op ∈ Opcode.divisions) ∨
      ∃ feature, fault = .unimplemented feature ∧ op ∈ Opcode.unsupported := by
  cases fault with
  | typeMismatch | outOfRange | nilKey => exact .inl h
  | divideByZero => exact .inr (.inl ⟨rfl, h⟩)
  | unimplemented feature => exact .inr (.inr ⟨feature, rfl, h⟩)
  | _ => exact h.elim

/-- If the run has ended with a fault, it is as said. -/
def Status.Blames (P : Fault → Prop) : Status → Prop
  | .finished _ (.error fault) => P fault
  | _ => True

namespace Machine

theorem deliver_blames (m : Machine) (results : List Value) (callers : List Caller) :
    (m.deliver results callers).Blames Fault.OfMachine := by
  induction callers generalizing m with
  | nil => trivial
  | cons caller rest ih =>
      obtain ⟨frame, delivery⟩ := caller
      cases delivery with
      | forward => exact ih m.leave
      | store first wanted =>
          cases h : storeResults first wanted results ⟨frame, m.heap⟩ with
          | ok a s =>
              rw [deliver_store_ok rest h]
              trivial
          | error fault s =>
              rw [deliver_store_error rest h]
              -- a call neither divides nor is it unsupported
              rcases (raises_storeResults first wanted results h).cases with
                hmachine | ⟨-, hcall⟩ | ⟨-, -, hcall⟩
              · exact hmachine
              · exact absurd hcall (by decide)
              · exact absurd hcall (by decide)

theorem enter_blames (m : Machine) (proto : Prototype) (upvalues : List CellRef)
    (args : List Value) (fileUpvalues : Nat) (callers : List Caller) :
    (m.enter proto upvalues args fileUpvalues callers).Blames Fault.OfMachine := by
  rcases Nat.lt_or_ge m.depth m.limits.depth with hroom | hfull
  · rw [enter_room hroom]
    trivial
  · rw [enter_full hfull]
    trivial

theorem call_blames (host : Host) (m : Machine) (callee : Value) (args : List Value)
    (callers : List Caller) : (m.call host callee args callers).Blames Fault.OfMachine := by
  cases callee with
  | closure ref => exact enter_blames m _ _ args _ callers
  | host name =>
      cases h : (host name args m.heap.tables).outcome with
      | ok results =>
          rw [call_host_ok callers h]
          exact deliver_blames _ results callers
      | error message =>
          rw [call_host_error callers h]
          trivial
  | _ =>
      rw [call_of_not_callable host m rfl]
      exact nofun

theorem begin_blames (host : Host) (m : Machine) (entry : Entry) :
    (m.begin host entry).Blames Fault.OfMachine := by
  cases entry with
  | prototype proto upvalues args fileUpvalues => exact enter_blames m _ _ _ _ []
  | value callee args => exact call_blames host m callee args []
  | chunk chunk env => exact enter_blames _ _ _ _ _ []

end Machine

namespace Running

theorem follow_blames (host : Host) (r : Running) (next : Next) :
    (r.follow host next).Blames Fault.OfMachine := by
  cases next with
  | proceed => trivial
  | call callee args first wanted => exact Machine.call_blames host r.machine callee args _
  | tailCall callee args => exact Machine.call_blames host r.machine callee args _
  | finish results => exact Machine.deliver_blames _ results r.callers

/-! ## One step -/

/-- The next step dispatches the instruction. -/
structure Dispatches (r : Running) (i : Instruction) : Prop where
  code : r.frame.proto.code[r.frame.pc]? = some i
  budget : r.machine.tick.overBudget? = none

theorem Dispatches.step_ok {host : Host} {r : Running} {i : Instruction} {op : Opcode} {next : Next}
    {s : Scope} (h : r.Dispatches i) (hop : i.opcode? = some op)
    (hx : i.execute op r.scope = .ok next s) :
    r.step host = follow host ⟨r.machine.tick.withHeap s.heap, s.frame, r.callers⟩ next := by
  rw [step_dispatch h.code h.budget]
  exact dispatch_ok hop hx

theorem Dispatches.step_error {host : Host} {r : Running} {i : Instruction} {op : Opcode}
    {fault : Fault} {s : Scope} (h : r.Dispatches i) (hop : i.opcode? = some op)
    (hx : i.execute op r.scope = .error fault s) :
    r.step host = fail ⟨r.machine.tick.withHeap s.heap, s.frame, r.callers⟩ fault := by
  rw [step_dispatch h.code h.budget]
  exact dispatch_error hop hx

/-- The fault needs an instruction to be true, and this one makes it true: its word names no
operation, or one that is not supported, or the operation divides by zero. -/
def FaultOf (r : Running) (i : Instruction) (fault : Fault) : Prop :=
  (i.opcode? = none ∧ fault = .invalidOpcode i.opcodeNumber) ∨
  (∃ op feature, i.opcode? = some op ∧ op ∈ Opcode.unsupported ∧
    fault = .unimplemented feature) ∨
  ∃ op s, i.opcode? = some op ∧ i.execute op r.scope = .error .divideByZero s ∧
    fault = .divideByZero

theorem faultOf_of_execute {r : Running} {i : Instruction} {op : Opcode} {fault : Fault} {s : Scope}
    (hop : i.opcode? = some op) (hx : i.execute op r.scope = .error fault s) :
    fault.OfMachine ∨ r.FaultOf i fault := by
  rcases (raises_execute i op hx).cases with hmachine | ⟨rfl, -⟩ | ⟨feature, rfl, hunsupported⟩
  · exact .inl hmachine
  · exact .inr (.inr (.inr ⟨op, s, hop, hx, rfl⟩))
  · exact .inr (.inr (.inl ⟨op, feature, hop, hunsupported, rfl⟩))

/-- All that a step can end with. -/
theorem step_blames (host : Host) (r : Running) :
    (r.step host).Blames fun fault =>
      fault.OfMachine ∨ ∃ i, r.Dispatches i ∧ r.FaultOf i fault := by
  have hmachine {s : Status} (h : s.Blames Fault.OfMachine) : s.Blames fun fault =>
      fault.OfMachine ∨ ∃ i, r.Dispatches i ∧ r.FaultOf i fault := by
    rcases s with _ | ⟨m, _ | _⟩
    · trivial
    · exact .inl h
    · trivial
  cases hcode : r.frame.proto.code[r.frame.pc]? with
  | none =>
      rw [step_end hcode]
      exact hmachine (follow_blames host r _)
  | some i =>
      cases hbudget : r.machine.tick.overBudget? with
      | some limit =>
          rw [step_overBudget hcode hbudget]
          exact hmachine trivial
      | none =>
          rw [step_dispatch hcode hbudget]
          cases hop : i.opcode? with
          | none =>
              rw [dispatch_invalid hop]
              exact .inr ⟨i, ⟨hcode, hbudget⟩, .inl ⟨hop, rfl⟩⟩
          | some op =>
              cases hx : i.execute op r.scope with
              | ok next s =>
                  rw [dispatch_ok (r := { r with machine := r.machine.tick }) hop hx]
                  exact hmachine (follow_blames host _ next)
              | error fault s =>
                  rw [dispatch_error (r := { r with machine := r.machine.tick }) hop hx]
                  exact (faultOf_of_execute hop hx).imp_right
                    fun hfault => ⟨i, ⟨hcode, hbudget⟩, hfault⟩

end Running

/-! ## Runs -/

namespace Status

/-- The run comes to the state, and dispatches the instruction there. -/
def Dispatched (host : Host) (s : Status) (r : Running) (i : Instruction) : Prop :=
  (∃ steps, s.run host steps = .running r) ∧ r.Dispatches i

/-- A run that ends has a last step, unless it has ended from the beginning. -/
theorem Ends.last_step {host : Host} {s : Status} {m : Machine} {outcome : Outcome}
    (h : s.Ends host m outcome) :
    s = .finished m outcome ∨
      ∃ steps r, s.run host steps = .running r ∧ r.step host = .finished m outcome := by
  obtain ⟨steps, hrun⟩ := h
  induction steps with
  | zero => exact .inl hrun
  | succ steps ih =>
      cases hbefore : s.run host steps with
      | running r =>
          rw [run_succ hbefore] at hrun
          exact .inr ⟨steps, r, hbefore, hrun⟩
      | finished m' outcome' =>
          rw [run_add, hbefore, run_finished] at hrun
          exact ih (hbefore.trans hrun)

/-- A fault is that of the instruction that was dispatched last, or it needs none. -/
theorem Ends.fault_cases {host : Host} {s : Status} {m : Machine} {fault : Fault}
    (hbegin : s.Blames Fault.OfMachine) (h : s.Ends host m (.error fault)) :
    fault.OfMachine ∨ ∃ r i, s.Dispatched host r i ∧ r.FaultOf i fault := by
  rcases h.last_step with rfl | ⟨steps, r, hrun, hstep⟩
  · exact .inl hbegin
  · have hblames := r.step_blames host
    rw [hstep] at hblames
    rcases hblames with hmachine | ⟨i, hdispatches, hfault⟩
    · exact .inl hmachine
    · exact .inr ⟨r, i, ⟨⟨steps, hrun⟩, hdispatches⟩, hfault⟩

end Status

theorem Kind.name_injective : Function.Injective Kind.name := by
  intro a b h
  revert h
  cases a <;> cases b <;> decide

/-- The operation numbers that name no operation are those from 83 on. -/
theorem Instruction.opcode?_eq_none_iff {i : Instruction} :
    i.opcode? = none ↔ 83 ≤ i.opcodeNumber := by
  rw [opcode?, Opcode.ofNumber?, List.getElem?_eq_none_iff]
  rfl

/-- **Faults of runs are true.** Whatever is called, on whatever machine, and however deep in its
calls it fails: the fault is never one of loading or of the host outside of its functions. An
index out of range is out of range, and a value of the wrong type is not of the right one. An
invalid operation number is 83 at least and stands in the low seven bits of a word that was
dispatched. If something is not supported, an instruction that asks for it was dispatched, and
for a division by zero one that divides and found two integers, the divisor zero. -/
theorem Machine.run_faults_true {host : Host} {m final : Machine} {entry : Entry} {fault : Fault}
    (h : (m.begin host entry).Ends host final (.error fault)) :
    (∀ cause, fault ≠ .load cause) ∧ (∀ message, fault ≠ .runtime message) ∧
    (∀ what index length, fault = .outOfRange what index length →
      index < 0 ∨ (length : Int) ≤ index) ∧
    (∀ action expected found, fault = .typeMismatch action expected found →
      found.name ≠ expected.name) ∧
    (∀ n, fault = .invalidOpcode n → 83 ≤ n ∧
      ∃ r i, (m.begin host entry).Dispatched host r i ∧ n = i.word.toNat % 128) ∧
    (∀ feature, fault = .unimplemented feature →
      ∃ r i op, (m.begin host entry).Dispatched host r i ∧ i.opcode? = some op ∧
        op ∈ Opcode.unsupported) ∧
    (fault = .divideByZero →
      ∃ r i op x, (m.begin host entry).Dispatched host r i ∧ i.opcode? = some op ∧
        op ∈ Opcode.divisions ∧
        r.frame.register? r.machine.heap i.b.toNat = some (.int x) ∧
        r.divisor? i op = some (.int 0)) := by
  rcases h.fault_cases (begin_blames host m entry) with hmachine | ⟨r, i, hdispatched, hfault⟩
  · refine ⟨?_, ?_, ?_, ?_, ?_, ?_, ?_⟩
    · rintro cause rfl
      exact hmachine
    · rintro message rfl
      exact hmachine
    · rintro what index length rfl
      exact hmachine
    · rintro action expected found rfl hname
      exact hmachine (Kind.name_injective hname)
    · rintro n rfl
      exact hmachine.elim
    · rintro feature rfl
      exact hmachine.elim
    · rintro rfl
      exact hmachine.elim
  · rcases hfault with ⟨hop, rfl⟩ | ⟨op, feature, hop, hunsupported, rfl⟩ | ⟨op, s, hop, hx, rfl⟩
    · refine ⟨nofun, nofun, nofun, nofun, ?_, nofun, nofun⟩
      intro n hn
      cases hn
      exact ⟨Instruction.opcode?_eq_none_iff.mp hop, r, i, hdispatched, rfl⟩
    · refine ⟨nofun, nofun, nofun, nofun, nofun, fun _ _ => ?_, nofun⟩
      exact ⟨r, i, op, hdispatched, hop, hunsupported⟩
    · refine ⟨nofun, nofun, nofun, nofun, nofun, nofun, fun _ => ?_⟩
      obtain ⟨hdivision, ⟨x, hdividend⟩, hdivisor⟩ := Running.divideByZero_operands hx
      exact ⟨r, i, op, x, hdispatched, hop, hdivision, hdividend, hdivisor⟩

/-- The call of a function that calls the one nested in it, which has the given code. -/
def Entry.nested (code : Array Instruction) (constants : Array Constant) : Entry :=
  .prototype
    { code := #[.ofABx .closure 0 0, .ofABC .call 0 1 0 false], protos := [{ code, constants }] }
    [] [] 0

/-- A remainder by the constant 0. -/
def Entry.remainder : Entry :=
  .nested #[.ofAsBx .loadI 0 7, .ofABC .modK 0 0 0 false] #[.int 0]

/-- A remainder by zero, a word that is no instruction and one that is not supported, each of them
in a function that is called. -/
theorem Machine.run_faults_true_nested :
    (∃ final, (begin (Host.library Value.text) {} .remainder).Ends (Host.library Value.text) final
      (.error .divideByZero)) ∧
    (∃ r i op x, (begin (Host.library Value.text) {} .remainder).Dispatched
        (Host.library Value.text) r i ∧ i.opcode? = some op ∧ op ∈ Opcode.divisions ∧
        r.frame.register? r.machine.heap i.b.toNat = some (.int x) ∧
        r.divisor? i op = some (.int 0)) ∧
    (∃ final, (begin (Host.library Value.text) {} (.nested #[⟨0x1d3⟩] #[])).Ends
      (Host.library Value.text) final (.error (.invalidOpcode 83))) ∧
    (∃ r i, (begin (Host.library Value.text) {} (.nested #[⟨0x1d3⟩] #[])).Dispatched
      (Host.library Value.text) r i ∧ 83 = i.word.toNat % 128) ∧
    (∃ final, (begin (Host.library Value.text) {}
        (.nested #[.ofABC .vararg 0 0 0 false] #[])).Ends
      (Host.library Value.text) final (.error (.unimplemented .vararg))) ∧
    (∃ r i op, (begin (Host.library Value.text) {}
        (.nested #[.ofABC .vararg 0 0 0 false] #[])).Dispatched
      (Host.library Value.text) r i ∧ i.opcode? = some op ∧ op ∈ Opcode.unsupported) := by
  have hdivides : (begin (Host.library Value.text) {} .remainder).Ends (Host.library Value.text) _
      (.error .divideByZero) :=
    Status.ends_of_outcome? 5 (by decide +kernel)
  have hinvalid : (begin (Host.library Value.text) {} (.nested #[⟨0x1d3⟩] #[])).Ends
      (Host.library Value.text) _ (.error (.invalidOpcode 83)) :=
    Status.ends_of_outcome? 5 (by decide +kernel)
  have hvararg : (begin (Host.library Value.text) {}
      (.nested #[.ofABC .vararg 0 0 0 false] #[])).Ends
      (Host.library Value.text) _ (.error (.unimplemented .vararg)) :=
    Status.ends_of_outcome? 5 (by decide +kernel)
  obtain ⟨-, -, -, -, -, -, hdivision⟩ := run_faults_true hdivides
  obtain ⟨-, -, -, -, hword, -, -⟩ := run_faults_true hinvalid
  obtain ⟨-, -, -, -, -, hunsupported, -⟩ := run_faults_true hvararg
  exact ⟨⟨_, hdivides⟩, hdivision rfl, ⟨_, hinvalid⟩, (hword _ rfl).2, ⟨_, hvararg⟩,
    hunsupported _ rfl⟩

end LuaBytecode
