import Mathlib
import LuaBytecode.Host.Library
import LuaBytecode.Proofs.Machine

/-! # Limits are transparent

Limits can stop a run, and do nothing else. A run that ends without hitting its
limits takes the very same steps under wider ones: each step either stops at a
limit or does not depend on the limits (`Running.step_withLimits`).
-/

namespace LuaBytecode

/-- The second limits allow all that the first do. Where there is no limit on
instructions, any number is allowed. -/
structure Limits.Within (limits wider : Limits) : Prop where
  depth : limits.depth ≤ wider.depth
  instructions : ∀ n, wider.instructions = some n →
    ∃ n₀, limits.instructions = some n₀ ∧ n₀ ≤ n

theorem Limits.Within.refl (limits : Limits) : limits.Within limits :=
  ⟨Nat.le_refl _, fun n hn => ⟨n, hn, Nat.le_refl n⟩⟩

/-- The faults that limits give rise to. -/
def Fault.IsLimit : Fault → Prop
  | .stackOverflow | .budgetExceeded _ => True
  | _ => False

/-- The run has been stopped by a limit. -/
def Status.Limited : Status → Prop
  | .finished _ (.error fault) => fault.IsLimit
  | _ => False

/-! ## Machines that differ in their limits -/

def Machine.withLimits (m : Machine) (limits : Limits) : Machine := { m with limits }

def Running.withLimits (r : Running) (limits : Limits) : Running :=
  { r with machine := r.machine.withLimits limits }

def Status.withLimits (s : Status) (limits : Limits) : Status :=
  match s with
  | .running r => .running (r.withLimits limits)
  | .finished m outcome => .finished (m.withLimits limits) outcome

variable {host : Host} {limits : Limits}

theorem Status.limits_of_eq_withLimits {s : Status} (h : s = s.withLimits limits) :
    s.machine.limits = limits := by
  rw [h]
  cases s <;> rfl

namespace Machine

theorem repeat_leave_withLimits (m : Machine) (n : Nat) :
    Nat.repeat leave n (m.withLimits limits) = (Nat.repeat leave n m).withLimits limits := by
  induction n with
  | zero => rfl
  | succ n ih =>
      rw [Nat.repeat, ih]
      rfl

theorem fail_withLimits (m : Machine) (active : Nat) (fault : Fault) :
    (m.withLimits limits).fail active fault = (m.fail active fault).withLimits limits := by
  rw [fail, fail, repeat_leave_withLimits]
  rfl

/-- Handing over results involves no limit. -/
theorem deliver_withLimits (m : Machine) (results : List Value) (callers : List Caller) :
    (m.withLimits limits).deliver results callers
      = (m.deliver results callers).withLimits limits := by
  induction callers generalizing m with
  | nil => rfl
  | cons caller rest ih =>
      obtain ⟨frame, delivery⟩ := caller
      cases delivery with
      | forward =>
          rw [deliver_forward]
          exact ih m.leave
      | store first wanted =>
          cases hs : Exec.storeResults first wanted results ⟨frame, m.heap⟩ with
          | ok _ s =>
              rw [deliver_store_ok rest hs]
              exact deliver_store_ok rest hs
          | error fault s =>
              rw [deliver_store_error rest hs, ← fail_withLimits]
              exact deliver_store_error rest hs

/-- Only the depth is checked when an activation begins. -/
theorem enter_withLimits {m : Machine} (hle : m.limits.Within limits) (proto : Prototype)
    (upvalues : List CellRef) (args : List Value) (fileUpvalues : Nat) (callers : List Caller)
    (h : ¬ (m.enter proto upvalues args fileUpvalues callers).Limited) :
    (m.withLimits limits).enter proto upvalues args fileUpvalues callers
      = (m.enter proto upvalues args fileUpvalues callers).withLimits limits := by
  have hroom : m.depth < m.limits.depth := by
    apply Nat.lt_of_not_le
    intro hfull
    rw [enter_full hfull] at h
    exact h trivial
  have hwider : (m.withLimits limits).depth < limits.depth :=
    Nat.lt_of_lt_of_le hroom hle.depth
  rw [enter_room hroom]
  exact enter_room hwider _ _ _ _ _

theorem call_withLimits {m : Machine} (hle : m.limits.Within limits) (callee : Value)
    (args : List Value) (callers : List Caller) (h : ¬ (m.call host callee args callers).Limited) :
    (m.withLimits limits).call host callee args callers
      = (m.call host callee args callers).withLimits limits := by
  cases callee with
  | closure ref => exact enter_withLimits hle _ _ _ _ _ h
  | host name =>
      cases hreply : (host name args m.heap.tables).outcome with
      | ok results =>
          rw [call_host_ok callers hreply, ← deliver_withLimits]
          exact call_host_ok callers hreply
      | error message =>
          rw [call_host_error callers hreply, ← fail_withLimits]
          exact call_host_error callers hreply
  | _ => exact fail_withLimits _ _ _

end Machine

namespace Running

theorem fail_withLimits (r : Running) (fault : Fault) :
    (r.withLimits limits).fail fault = (r.fail fault).withLimits limits :=
  Machine.fail_withLimits _ _ _

theorem follow_withLimits {r : Running} (hle : r.machine.limits.Within limits) (next : Next)
    (h : ¬ (r.follow host next).Limited) :
    (r.withLimits limits).follow host next = (r.follow host next).withLimits limits := by
  cases next with
  | proceed => rfl
  | call callee args first wanted => exact Machine.call_withLimits hle _ _ _ h
  | tailCall callee args => exact Machine.call_withLimits hle _ _ _ h
  | finish results => exact Machine.deliver_withLimits r.machine.leave _ _

theorem dispatch_withLimits {r : Running} (hle : r.machine.limits.Within limits)
    (i : Instruction) (h : ¬ (r.dispatch host i).Limited) :
    (r.withLimits limits).dispatch host i = (r.dispatch host i).withLimits limits := by
  cases hop : i.opcode? with
  | none =>
      rw [dispatch_invalid hop, dispatch_invalid hop]
      exact fail_withLimits r _
  | some op =>
      cases hx : i.execute op ⟨{ r.frame with pc := r.frame.pc + 1 }, r.machine.heap⟩ with
      | ok next s =>
          rw [dispatch_ok hop hx] at h ⊢
          have hfollow := follow_withLimits
            (r := ⟨r.machine.withHeap s.heap, s.frame, r.callers⟩) hle next h
          rw [← hfollow]
          exact dispatch_ok (r := r.withLimits limits) hop hx
      | error fault s =>
          rw [dispatch_error hop hx, ← fail_withLimits]
          exact dispatch_error hop hx

/-- A budget that is not exceeded is not exceeded when it is wider. -/
theorem overBudget?_withLimits {m : Machine} (hle : m.limits.Within limits)
    (h : m.overBudget? = none) : (m.withLimits limits).overBudget? = none := by
  unfold Machine.overBudget? at h ⊢
  rw [Option.filter_eq_none_iff] at h ⊢
  intro n hn
  obtain ⟨n₀, hn₀, hle₀⟩ := hle.instructions n hn
  have hnot := h n₀ hn₀
  simp only [decide_eq_true_eq, Nat.not_lt] at hnot ⊢
  exact Nat.le_trans hnot hle₀

/-- A step stops at a limit, or it is the same under wider limits. -/
theorem step_withLimits {r : Running} (hle : r.machine.limits.Within limits)
    (h : ¬ (r.step host).Limited) :
    (r.withLimits limits).step host = (r.step host).withLimits limits := by
  cases hcode : r.frame.proto.code[r.frame.pc]? with
  | none =>
      rw [step_end hcode] at h ⊢
      rw [← follow_withLimits hle _ h]
      exact step_end hcode
  | some i =>
      cases hbudget : r.machine.tick.overBudget? with
      | some limit =>
          rw [step_overBudget hcode hbudget] at h
          exact absurd trivial h
      | none =>
          rw [step_dispatch hcode hbudget] at h ⊢
          have hwider : (r.machine.tick.withLimits limits).overBudget? = none :=
            overBudget?_withLimits hle hbudget
          have hdispatch := dispatch_withLimits
            (r := { r with machine := r.machine.tick }) hle i h
          rw [← hdispatch]
          exact step_dispatch (r := r.withLimits limits) hcode hwider

theorem step_limits {r : Running} (h : ¬ (r.step host).Limited) :
    (r.step host).machine.limits = r.machine.limits :=
  Status.limits_of_eq_withLimits (step_withLimits (.refl _) h)

end Running

/-! ## Runs -/

/-- A limit ends the run with its fault. -/
theorem Status.not_limited_of_run {steps : Nat} {s : Status} {m : Machine} {outcome : Outcome}
    (h : s.run host steps = .finished m outcome) (hfault : ¬ (finished m outcome).Limited) :
    ¬ s.Limited := by
  cases s with
  | running r => exact id
  | finished m' outcome' =>
      rw [run_finished] at h
      rwa [h]

theorem Status.run_withLimits {steps : Nat} {s : Status} {m : Machine} {outcome : Outcome}
    (hle : s.machine.limits.Within limits) (h : s.run host steps = .finished m outcome)
    (hfault : ¬ (finished m outcome).Limited) :
    (s.withLimits limits).run host steps = .finished (m.withLimits limits) outcome := by
  induction steps generalizing s with
  | zero =>
      rw [run] at h ⊢
      rw [h]
      rfl
  | succ steps ih =>
      cases s with
      | finished m' outcome' =>
          rw [run_finished] at h
          cases h
          exact run_finished _ _ _ _
      | running r =>
          rw [run_running] at h
          -- a step at a limit would have ended the run with the fault of that limit
          have hstep : ¬ (r.step host).Limited := not_limited_of_run h hfault
          have hle' : (r.step host).machine.limits.Within limits := by
            rw [Running.step_limits hstep]
            exact hle
          have hrest := ih hle' h
          rw [← Running.step_withLimits hle hstep] at hrest
          exact hrest

/-- **Limits are transparent.** A call that ends in any way but by hitting a
limit ends in the same way under wider limits, with the same heap and the same
counters. -/
theorem Machine.callPrototype_wider_limits {host : Host} {m : Machine} {limits : Limits}
    (hle : m.limits.Within limits) (proto : Prototype) (upvalues : List CellRef)
    (args : List Value) (fileUpvalues : Nat) {final : Machine} {outcome : Outcome}
    (hends : (m.callPrototype proto upvalues args fileUpvalues).Ends host final outcome)
    (hfault : ∀ fault, outcome = .error fault →
      fault ≠ .stackOverflow ∧ ∀ n, fault ≠ .budgetExceeded n) :
    ((m.withLimits limits).callPrototype proto upvalues args fileUpvalues).Ends host
      (final.withLimits limits) outcome := by
  obtain ⟨steps, hrun⟩ := hends
  have hnot : ¬ (Status.finished final outcome).Limited := by
    cases outcome with
    | ok results => exact id
    | error fault =>
        obtain ⟨hoverflow, hbudget⟩ := hfault fault rfl
        cases fault with
        | stackOverflow => exact absurd rfl hoverflow
        | budgetExceeded n => exact absurd rfl (hbudget n)
        | _ => exact id
  have hbegin := Status.not_limited_of_run hrun hnot
  have hlimits : (m.callPrototype proto upvalues args fileUpvalues).machine.limits = m.limits :=
    Status.limits_of_eq_withLimits (enter_withLimits (.refl _) _ _ _ _ _ hbegin)
  have hwider : (m.callPrototype proto upvalues args fileUpvalues).machine.limits.Within limits := by
    rwa [hlimits]
  have hsame : (m.withLimits limits).callPrototype proto upvalues args fileUpvalues
      = (m.callPrototype proto upvalues args fileUpvalues).withLimits limits :=
    enter_withLimits hle _ _ _ _ _ hbegin
  refine ⟨steps, ?_⟩
  rw [hsame]
  exact Status.run_withLimits hwider hrun hnot

/-- A function that calls the one nested in it and returns its result. -/
def Prototype.relay : Prototype where
  code := #[.ofABx .closure 0 0, .ofABC .call 0 1 1 false, .ofABC .ret1 0 0 0 false]
  protos := [{ code := #[.ofAsBx .loadI 0 7, .ofABC .ret1 0 0 0 false] }]

/-- The tightest limits that let `Prototype.relay` end, and wider ones. -/
theorem Machine.callPrototype_wider_limits_relay :
    ∃ final : Machine,
      (callPrototype { limits := ⟨2, some 5⟩ } .relay [] [] 0).Ends (Host.library Value.text)
        final (.ok [.int 7]) ∧
      (callPrototype { limits := ⟨200, none⟩ } .relay [] [] 0).Ends (Host.library Value.text)
        (final.withLimits ⟨200, none⟩) (.ok [.int 7]) := by
  have hends : (callPrototype { limits := ⟨2, some 5⟩ } .relay [] [] 0).Ends
      (Host.library Value.text) _ (.ok [.int 7]) :=
    Status.ends_of_outcome? 5 (by decide +kernel)
  have hwithin : Limits.Within ⟨2, some 5⟩ ⟨200, none⟩ := ⟨by decide, nofun⟩
  exact ⟨_, hends, callPrototype_wider_limits hwithin _ _ _ _ hends nofun⟩

end LuaBytecode
