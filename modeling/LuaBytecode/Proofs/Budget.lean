import Mathlib
import LuaBytecode.Host.Library
import LuaBytecode.Proofs.Faults

/-! # The instruction budget ends every run

Code can jump backwards and call itself, so a run without a budget need not end.
With a budget, what is left of it and the number of activations that are still to
end make a measure that each step lowers. An instruction may start one activation,
and with that it uses up an instruction of the budget; the end of an activation is
free, but there is one activation less. The counter belongs to the machine, not to
an activation, so nested calls, tail calls and the calls after a fault all draw on
the same budget.
-/

namespace LuaBytecode

/-! ## Parts of a step that count nothing -/

namespace Status

/-- Activations that have not ended. -/
def height : Status → Nat
  | .running r => r.callers.length + 1
  | .finished _ _ => 0

/-- The status comes from machine `m` without an instruction being counted. At most
`most` activations are left, and the budget has not been looked at. -/
structure Uncounted (m : Machine) (most : Nat) (s : Status) : Prop where
  executed : s.machine.executed = m.executed
  limits : s.machine.limits = m.limits
  height : s.height ≤ most
  outcome : ∀ limit, s.outcome? ≠ some (.error (.budgetExceeded limit))

/-- Only the counter and the limits of the machine matter. -/
theorem Uncounted.transfer {m m' : Machine} {n k : Nat} {s : Status} (h : Uncounted m n s)
    (hexecuted : m.executed = m'.executed) (hlimits : m.limits = m'.limits) (hle : n ≤ k) :
    Uncounted m' k s :=
  ⟨h.executed.trans hexecuted, h.limits.trans hlimits, h.height.trans hle, h.outcome⟩

end Status

theorem Fault.OfInstruction.ne_budgetExceeded {op : Opcode} {fault : Fault}
    (h : fault.OfInstruction op) (limit : Nat) : fault ≠ .budgetExceeded limit := by
  rintro rfl
  exact h

namespace Machine

@[simp]
theorem executed_repeat_leave (m : Machine) (n : Nat) :
    (Nat.repeat leave n m).executed = m.executed := by
  induction n with
  | zero => rfl
  | succ n ih => exact ih

@[simp]
theorem limits_repeat_leave (m : Machine) (n : Nat) :
    (Nat.repeat leave n m).limits = m.limits := by
  induction n with
  | zero => rfl
  | succ n ih => exact ih

theorem executed_fail (m : Machine) (active : Nat) (fault : Fault) :
    (m.fail active fault).machine.executed = m.executed :=
  executed_repeat_leave m active

theorem limits_fail (m : Machine) (active : Nat) (fault : Fault) :
    (m.fail active fault).machine.limits = m.limits :=
  limits_repeat_leave m active

theorem fail_uncounted (m : Machine) (active : Nat) {fault : Fault}
    (hfault : ∀ limit, fault ≠ .budgetExceeded limit) :
    Status.Uncounted m 0 (m.fail active fault) := by
  refine ⟨executed_fail m active fault, limits_fail m active fault, Nat.zero_le _, ?_⟩
  intro limit h
  cases h
  exact hfault limit rfl

theorem deliver_uncounted (m : Machine) (results : List Value) (callers : List Caller) :
    Status.Uncounted m callers.length (m.deliver results callers) := by
  induction callers generalizing m with
  | nil => exact ⟨rfl, rfl, Nat.zero_le _, nofun⟩
  | cons caller rest ih =>
      obtain ⟨frame, delivery⟩ := caller
      cases delivery with
      | forward => exact (ih m.leave).transfer rfl rfl (Nat.le_succ _)
      | store first wanted =>
          cases h : Exec.storeResults first wanted results ⟨frame, m.heap⟩ with
          | ok a s =>
              rw [deliver_store_ok rest h]
              exact ⟨rfl, rfl, Nat.le_refl _, nofun⟩
          | error fault s =>
              rw [deliver_store_error rest h]
              have hfault := Exec.raises_storeResults first wanted results h
              exact (fail_uncounted _ _ hfault.ne_budgetExceeded).transfer rfl rfl (Nat.zero_le _)

theorem enter_uncounted (m : Machine) (proto : Prototype) (upvalues : List CellRef)
    (args : List Value) (fileUpvalues : Nat) (callers : List Caller) :
    Status.Uncounted m (callers.length + 1)
      (m.enter proto upvalues args fileUpvalues callers) := by
  rcases Nat.lt_or_ge m.depth m.limits.depth with hroom | hfull
  · rw [enter_room hroom]
    exact ⟨rfl, rfl, Nat.le_refl _, nofun⟩
  · rw [enter_full hfull]
    exact .transfer (fail_uncounted m _ nofun) rfl rfl (Nat.zero_le _)

theorem call_uncounted (host : Host) (m : Machine) (callee : Value) (args : List Value)
    (callers : List Caller) :
    Status.Uncounted m (callers.length + 1) (m.call host callee args callers) := by
  cases callee with
  | closure ref => exact enter_uncounted m _ _ args _ callers
  | host name =>
      cases h : (host name args m.heap.tables).outcome with
      | ok results =>
          rw [call_host_ok callers h]
          exact (deliver_uncounted _ results callers).transfer rfl rfl (Nat.le_succ _)
      | error message =>
          rw [call_host_error callers h]
          exact .transfer (fail_uncounted _ _ nofun) rfl rfl (Nat.zero_le _)
  | _ => exact .transfer (fail_uncounted m _ nofun) rfl rfl (Nat.zero_le _)

end Machine

namespace Running

theorem follow_uncounted (host : Host) (r : Running) (next : Next) :
    Status.Uncounted r.machine (r.callers.length + 2) (r.follow host next) := by
  cases next with
  | proceed => exact ⟨rfl, rfl, Nat.le_succ _, nofun⟩
  | call callee args first wanted =>
      exact Machine.call_uncounted host r.machine callee args (⟨r.frame, .store first wanted⟩ :: _)
  | tailCall callee args =>
      exact Machine.call_uncounted host r.machine callee args (⟨r.frame, .forward⟩ :: _)
  | finish results =>
      exact (Machine.deliver_uncounted _ results r.callers).transfer rfl rfl (Nat.le_add_right _ 2)

theorem dispatch_uncounted (host : Host) (r : Running) (i : Instruction) :
    Status.Uncounted r.machine (r.callers.length + 2) (r.dispatch host i) := by
  cases hop : i.opcode? with
  | none =>
      rw [dispatch_invalid hop]
      exact .transfer (Machine.fail_uncounted _ _ nofun) rfl rfl (Nat.zero_le _)
  | some op =>
      cases h : i.execute op ⟨{ r.frame with pc := r.frame.pc + 1 }, r.machine.heap⟩ with
      | ok next s =>
          rw [dispatch_ok hop h]
          exact (follow_uncounted host _ next).transfer rfl rfl (Nat.le_refl _)
      | error fault s =>
          rw [dispatch_error hop h]
          have hfault := Exec.raises_execute i op h
          exact (Machine.fail_uncounted _ _ hfault.ne_budgetExceeded).transfer rfl rfl
            (Nat.zero_le _)

/-! ## One step -/

theorem overBudget?_tick {m : Machine} {limit : Nat} (hlimit : m.limits.instructions = some limit) :
    m.tick.overBudget? = if limit < m.executed + 1 then some limit else none := by
  have htick : m.tick.limits.instructions = some limit := hlimit
  rw [Machine.overBudget?, htick, Option.filter_some]
  simp only [decide_eq_true_eq]
  rfl

/-- All that a step can do to the count. -/
theorem step_cases (host : Host) {r : Running} {limit : Nat}
    (hlimit : r.machine.limits.instructions = some limit) :
    (r.frame.proto.code[r.frame.pc]? = none ∧
      Status.Uncounted r.machine r.callers.length (r.step host)) ∨
    (limit < r.machine.executed + 1 ∧
      r.step host = r.machine.tick.fail (r.callers.length + 1) (.budgetExceeded limit)) ∨
    (r.machine.executed + 1 ≤ limit ∧
      Status.Uncounted r.machine.tick (r.callers.length + 2) (r.step host)) := by
  cases hcode : r.frame.proto.code[r.frame.pc]? with
  | none =>
      left
      rw [step_end hcode]
      exact ⟨rfl, (Machine.deliver_uncounted _ [] r.callers).transfer rfl rfl (Nat.le_refl _)⟩
  | some i =>
      right
      have hbudget := overBudget?_tick hlimit
      rcases Nat.lt_or_ge limit (r.machine.executed + 1) with hover | hwithin
      · rw [if_pos hover] at hbudget
        exact .inl ⟨hover, step_overBudget hcode hbudget⟩
      · rw [if_neg (Nat.not_lt.mpr hwithin)] at hbudget
        rw [step_dispatch hcode hbudget]
        exact .inr ⟨hwithin, dispatch_uncounted host { r with machine := r.machine.tick } i⟩

end Running

/-! ## Runs -/

namespace Status

/-- How the count of a run that started at `start` stands to the limit. Only the run that
exceeds the budget counts beyond it, by the one instruction that is not carried out. -/
structure Accounts (limit start : Nat) (s : Status) : Prop where
  limits : s.machine.limits.instructions = some limit
  start_le : start ≤ s.machine.executed
  exceeded : s.outcome? = some (.error (.budgetExceeded limit)) →
    s.machine.executed = max start limit + 1
  within : s.outcome? ≠ some (.error (.budgetExceeded limit)) →
    s.machine.executed ≤ max start limit

theorem Uncounted.accounts {m : Machine} {n limit start : Nat} {s : Status} (h : Uncounted m n s)
    (hlimits : m.limits.instructions = some limit) (hstart : start ≤ m.executed)
    (hwithin : m.executed ≤ max start limit) : Accounts limit start s where
  limits := h.limits ▸ hlimits
  start_le := h.executed ▸ hstart
  exceeded hexceeded := absurd hexceeded (h.outcome limit)
  within _ := h.executed ▸ hwithin

theorem Accounts.step {limit start : Nat} {r : Running} (host : Host)
    (h : Accounts limit start (.running r)) : Accounts limit start (r.step host) := by
  have hstart : start ≤ r.machine.executed := h.start_le
  have hwithin : r.machine.executed ≤ max start limit := h.within nofun
  rcases Running.step_cases host h.limits with ⟨-, hend⟩ | ⟨hover, hstep⟩ | ⟨hroom, hnext⟩
  · exact hend.accounts h.limits hstart hwithin
  · -- the count had come to the limit, or started beyond it, and now goes one further
    have hcount : (r.step host).machine.executed = r.machine.executed + 1 := by
      rw [hstep, Machine.executed_fail]
      rfl
    refine ⟨?_, ?_, ?_, ?_⟩
    · rw [hstep, Machine.limits_fail]
      exact h.limits
    · omega
    · intro _
      omega
    · intro hother
      rw [hstep] at hother
      exact absurd rfl hother
  · refine hnext.accounts h.limits (Nat.le_succ_of_le hstart) ?_
    exact hroom.trans (Nat.le_max_right start limit)

theorem Accounts.run {limit start : Nat} {s : Status} (host : Host)
    (h : Accounts limit start s) (steps : Nat) : Accounts limit start (s.run host steps) := by
  induction steps generalizing s with
  | zero => exact h
  | succ steps ih =>
      cases s with
      | finished m outcome => exact h
      | running r => exact ih (h.step host)

/-- What is left to do at most: an instruction of the budget can start one activation, which
then has to end. -/
def remaining (limit : Nat) (s : Status) : Nat :=
  2 * (limit + 1 - s.machine.executed) + s.height

theorem remaining_step_lt {limit : Nat} {r : Running} (host : Host)
    (hlimit : r.machine.limits.instructions = some limit) :
    (r.step host).remaining limit < remaining limit (.running r) := by
  have hbefore : remaining limit (.running r)
      = 2 * (limit + 1 - r.machine.executed) + (r.callers.length + 1) := rfl
  rcases Running.step_cases host hlimit with ⟨-, hend⟩ | ⟨hover, hstep⟩ | ⟨hroom, hnext⟩
  · have hexecuted := hend.executed
    have hheight := hend.height
    unfold remaining at hbefore ⊢
    omega
  · have hcount : (r.step host).machine.executed = r.machine.executed + 1 := by
      rw [hstep, Machine.executed_fail]
      rfl
    have hheight : (r.step host).height = 0 := by
      rw [hstep]
      rfl
    unfold remaining at hbefore ⊢
    omega
  · have hexecuted : (r.step host).machine.executed = r.machine.executed + 1 := hnext.executed
    have hheight := hnext.height
    unfold remaining at hbefore ⊢
    omega

/-- A run under a budget ends within the steps that remain. -/
theorem Accounts.finishes {limit start : Nat} {s : Status} (host : Host)
    (h : Accounts limit start s) {steps : Nat} (hsteps : s.remaining limit ≤ steps) :
    ∃ final outcome, s.run host steps = .finished final outcome := by
  induction steps generalizing s with
  | zero =>
      cases s with
      | finished m outcome => exact ⟨m, outcome, rfl⟩
      | running r => exact absurd hsteps (by simp [remaining, height])
  | succ steps ih =>
      cases s with
      | finished m outcome => exact ⟨m, outcome, rfl⟩
      | running r =>
          refine ih (h.step host) ?_
          have hlt := remaining_step_lt host h.limits
          omega

/-- The run comes to an instruction at least once. -/
def Dispatches (host : Host) (s : Status) : Prop :=
  ∃ steps r i, s.run host steps = .running r ∧ r.frame.proto.code[r.frame.pc]? = some i

/-- A run that starts beyond the budget is stopped at its first instruction. -/
theorem Accounts.exceeds {limit start : Nat} {s : Status} {host : Host}
    (h : Accounts limit start s) (hstart : limit < start) (hdispatches : s.Dispatches host) :
    ∃ final, s.Ends host final (.error (.budgetExceeded limit)) := by
  obtain ⟨steps, r, i, hrun, hcode⟩ := hdispatches
  have hreached : Accounts limit start (.running r) := hrun ▸ h.run host steps
  have hover : limit < r.machine.executed + 1 :=
    Nat.lt_succ_of_lt (hstart.trans_le hreached.start_le)
  have hbudget : r.machine.tick.overBudget? = some limit :=
    (Running.overBudget?_tick hreached.limits).trans (if_pos hover)
  exact ⟨_, steps + 1, (run_succ hrun).trans (Running.step_overBudget hcode hbudget)⟩

end Status

/-! ## Calls on one machine -/

/-- The ways into the machine. -/
inductive Entry where
  | prototype (proto : Prototype) (upvalues : List CellRef) (args : List Value)
      (fileUpvalues : Nat)
  | value (callee : Value) (args : List Value)
  | chunk (chunk : Chunk) (env : Value)

namespace Machine

def begin (host : Host) (m : Machine) : Entry → Status
  | .prototype proto upvalues args fileUpvalues =>
      m.callPrototype proto upvalues args fileUpvalues
  | .value callee args => m.callValue host callee args
  | .chunk chunk env => m.callChunk chunk env

/-- What a machine can become: calls are made on it one after another, whatever their
outcomes, and in between the heap may be changed from outside. -/
inductive Session (m : Machine) : Machine → Prop
  | start : Session m m
  | call {m₁ m₂ : Machine} (host : Host) (entry : Entry) (outcome : Outcome) :
      Session m m₁ → (m₁.begin host entry).Ends host m₂ outcome → Session m m₂
  | touch {m₁ : Machine} (heap : Heap) : Session m m₁ → Session m (m₁.withHeap heap)

theorem begin_uncounted (host : Host) (m : Machine) (entry : Entry) :
    Status.Uncounted m 1 (m.begin host entry) := by
  cases entry with
  | prototype proto upvalues args fileUpvalues =>
      exact enter_uncounted m proto upvalues args fileUpvalues []
  | value callee args => exact call_uncounted host m callee args []
  | chunk chunk env => exact .transfer (enter_uncounted _ _ _ _ _ []) rfl rfl (Nat.le_refl _)

theorem begin_accounts (host : Host) {m : Machine} {limit : Nat}
    (hlimit : m.limits.instructions = some limit) (entry : Entry) :
    (m.begin host entry).Accounts limit m.executed :=
  (begin_uncounted host m entry).accounts hlimit (Nat.le_refl _) (Nat.le_max_left _ _)

/-- The limit stays and the counter never goes back. -/
theorem Session.keeps {m m' : Machine} {limit : Nat} (h : Session m m')
    (hlimit : m.limits.instructions = some limit) :
    m'.limits.instructions = some limit ∧ m.executed ≤ m'.executed := by
  induction h with
  | start => exact ⟨hlimit, Nat.le_refl _⟩
  | call host entry outcome _ hends ih =>
      obtain ⟨hlimit₁, hle⟩ := ih
      obtain ⟨steps, hrun⟩ := hends
      have hafter := (begin_accounts host hlimit₁ entry).run host steps
      rw [hrun] at hafter
      exact ⟨hafter.limits, hle.trans hafter.start_le⟩
  | touch heap _ ih => exact ih

end Machine

/-- A function that calls the empty function nested in it for ever. -/
def Prototype.treadmill : Prototype where
  code := #[.ofABx .closure 0 0, .ofABC .call 0 1 0 false, .ofSJ .jmp (-3)]
  protos := [{}]

/-- A run of `Prototype.treadmill` with a budget of 10 instructions. -/
def Prototype.treadmillAfter (steps : Nat) : Status :=
  (Machine.callPrototype { limits := ⟨200, some 10⟩ } treadmill [] [] 0).run
    (Host.library Value.text) steps

end LuaBytecode
