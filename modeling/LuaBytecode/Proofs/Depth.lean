import Mathlib
import LuaBytecode.Proofs.Budget

/-! # The depth of calls

The machine counts its activations, and nothing else brings the count back down than
their ends. So the count has to be in step with the stack of activations in every
state of a run: it is the count at the start and one for each live activation. When the
run has ended, with results or with a fault from however deep, no activation is left
and the count is what it was.

The one thing that looks at the count is the start of an activation. This is where a
stack overflow comes from, and there is no other way to one.
-/

namespace LuaBytecode

/-! ## The count and the stack -/

namespace Status

/-- The depth is `base` and one for each live activation. As long as there is one, the
depth does not exceed the limit. -/
structure Bracketed (limit base : Nat) (s : Status) : Prop where
  limits : s.machine.limits.depth = limit
  depth : s.machine.depth = base + s.height
  within : 0 < s.height → s.machine.depth ≤ limit

end Status

namespace Machine

variable {m : Machine} {limit base : Nat}

@[simp]
theorem depth_leave (m : Machine) : m.leave.depth = m.depth - 1 := rfl

@[simp]
theorem depth_repeat_leave (m : Machine) (n : Nat) :
    (Nat.repeat leave n m).depth = m.depth - n := by
  induction n with
  | zero => rfl
  | succ n ih => rw [Nat.repeat, depth_leave, ih, Nat.sub_sub]

/-- A fault ends all activations, and each takes back what it had added. -/
theorem fail_bracketed {active : Nat} (hlimit : m.limits.depth = limit)
    (hdepth : m.depth = base + active) (fault : Fault) :
    (m.fail active fault).Bracketed limit base where
  limits := by rw [limits_fail, hlimit]
  depth := by
    show (Nat.repeat leave active m).depth = base + 0
    rw [depth_repeat_leave, hdepth, Nat.add_sub_cancel, Nat.add_zero]
  within := nofun

theorem deliver_bracketed {callers : List Caller} (hlimit : m.limits.depth = limit)
    (hdepth : m.depth = base + callers.length) (hwithin : 0 < callers.length → m.depth ≤ limit)
    (results : List Value) : (m.deliver results callers).Bracketed limit base := by
  induction callers generalizing m with
  | nil => exact ⟨hlimit, hdepth, nofun⟩
  | cons caller rest ih =>
      obtain ⟨frame, delivery⟩ := caller
      rw [List.length_cons] at hdepth
      cases delivery with
      | forward =>
          rw [deliver_forward]
          refine ih hlimit ?_ ?_
          · rw [depth_leave, hdepth]
            rfl
          · intro _
            exact (Nat.sub_le _ _).trans (hwithin (Nat.succ_pos _))
      | store first wanted =>
          cases h : Exec.storeResults first wanted results ⟨frame, m.heap⟩ with
          | ok a s =>
              rw [deliver_store_ok rest h]
              exact ⟨hlimit, hdepth, fun _ => hwithin (Nat.succ_pos _)⟩
          | error fault s =>
              rw [deliver_store_error rest h]
              exact fail_bracketed (m := m.withHeap s.heap) hlimit hdepth fault

/-- An activation begins only where there is room for it. -/
theorem enter_bracketed {callers : List Caller} (hlimit : m.limits.depth = limit)
    (hdepth : m.depth = base + callers.length) (proto : Prototype) (upvalues : List CellRef)
    (args : List Value) (fileUpvalues : Nat) :
    (m.enter proto upvalues args fileUpvalues callers).Bracketed limit base := by
  rcases Nat.lt_or_ge m.depth m.limits.depth with hroom | hfull
  · rw [enter_room hroom]
    exact ⟨hlimit, congrArg Nat.succ hdepth, fun _ => hlimit ▸ hroom⟩
  · rw [enter_full hfull]
    exact fail_bracketed hlimit hdepth _

theorem call_bracketed {callers : List Caller} (host : Host) (hlimit : m.limits.depth = limit)
    (hdepth : m.depth = base + callers.length) (hwithin : 0 < callers.length → m.depth ≤ limit)
    (callee : Value) (args : List Value) :
    (m.call host callee args callers).Bracketed limit base := by
  cases callee with
  | closure ref => exact enter_bracketed hlimit hdepth _ _ args _
  | host name =>
      cases h : (host name args m.heap.tables).outcome with
      | ok results =>
          rw [call_host_ok callers h]
          exact deliver_bracketed (m := m.withReply _) hlimit hdepth hwithin results
      | error message =>
          rw [call_host_error callers h]
          exact fail_bracketed (m := m.withReply _) hlimit hdepth _
  | _ => exact fail_bracketed hlimit hdepth _

theorem begin_bracketed (host : Host) (m : Machine) (entry : Entry) :
    (m.begin host entry).Bracketed m.limits.depth m.depth := by
  cases entry with
  | prototype proto upvalues args fileUpvalues => exact enter_bracketed rfl rfl _ _ _ _
  | value callee args =>
      show (m.call host callee args []).Bracketed _ _
      refine call_bracketed host ?_ ?_ ?_ callee args
      · rfl
      · rfl
      · exact nofun
  | chunk chunk env =>
      show ((m.withHeap _).enter _ _ _ _ []).Bracketed _ _
      refine enter_bracketed ?_ ?_ _ _ _ _
      · rfl
      · rfl

/-- An instruction by itself starts and ends no activation. -/
theorem attempt_counts {f f' : Frame} {i : Instruction} {x : Except Fault Next} {m' : Machine}
    (h : m.attempt f i = (x, m', f')) : m'.depth = m.depth ∧ m'.limits = m.limits := by
  cases x with
  | ok next =>
      obtain ⟨op, s, -, -, rfl, -⟩ := attempt_ok_cases h
      exact ⟨rfl, rfl⟩
  | error fault =>
      rcases attempt_error_cases h with ⟨rfl, -, -⟩ | ⟨op, s, -, -, rfl, -⟩
      · exact ⟨rfl, rfl⟩
      · exact ⟨rfl, rfl⟩

end Machine

namespace Running

variable {r : Running} {limit base : Nat}

theorem follow_bracketed (host : Host) (h : (Status.running r).Bracketed limit base)
    (next : Next) : (r.follow host next).Bracketed limit base := by
  have hdepth : r.machine.depth = base + (r.callers.length + 1) := h.depth
  have hwithin : r.machine.depth ≤ limit := h.within (Nat.succ_pos _)
  cases next with
  | proceed => exact h
  | call callee args first wanted =>
      exact Machine.call_bracketed (m := r.machine) host h.limits hdepth (fun _ => hwithin) callee
        args
  | tailCall callee args =>
      exact Machine.call_bracketed (m := r.machine) host h.limits hdepth (fun _ => hwithin) callee
        args
  | finish results =>
      refine Machine.deliver_bracketed (m := r.machine.leave) h.limits ?_ ?_ results
      · rw [Machine.depth_leave, hdepth]
        rfl
      · intro _
        exact (Nat.sub_le _ _).trans hwithin

theorem step_bracketed (host : Host) (h : (Status.running r).Bracketed limit base) :
    (r.step host).Bracketed limit base := by
  cases hcode : r.frame.proto.code[r.frame.pc]? with
  | none =>
      rw [step_end hcode]
      exact follow_bracketed host h _
  | some i =>
      obtain ⟨⟨x, m, f⟩, hx⟩ : ∃ result, r.machine.attempt r.frame i = result := ⟨_, rfl⟩
      obtain ⟨hdepth, hlimits⟩ := Machine.attempt_counts hx
      have hafter : (Status.running ⟨m, f, r.callers⟩).Bracketed limit base :=
        ⟨(congrArg Limits.depth hlimits).trans h.limits, hdepth.trans h.depth,
          fun hpos => hdepth.le.trans (h.within hpos)⟩
      cases x with
      | ok next =>
          rw [step_of_attempt_ok hcode hx]
          exact follow_bracketed host hafter next
      | error fault =>
          rw [step_of_attempt_error hcode hx]
          exact Machine.fail_bracketed hafter.limits hafter.depth fault

end Running

theorem Status.Bracketed.run {limit base : Nat} {s : Status} (host : Host)
    (h : s.Bracketed limit base) (steps : Nat) : (s.run host steps).Bracketed limit base := by
  induction steps generalizing s with
  | zero => exact h
  | succ steps ih =>
      cases s with
      | finished m outcome => exact h
      | running r => exact ih (r.step_bracketed host h)

/-! ## Stack overflows -/

/-- What is to happen next is the call of a closure, in place of this activation or not. -/
def Next.StartsActivation : Next → Prop
  | .call (.closure _) _ _ _ => True
  | .tailCall (.closure _) _ => True
  | _ => False

/-- The next instruction is carried out and calls a closure, so that an activation is to
begin. -/
def Running.StartsActivation (r : Running) : Prop :=
  ∃ i next m f, r.frame.proto.code[r.frame.pc]? = some i ∧
    r.machine.attempt r.frame i = (.ok next, m, f) ∧ next.StartsActivation

/-- All ways into the machine start an activation, except calls of values that are not
closures. -/
def Entry.StartsActivation : Entry → Prop
  | .value (.closure _) _ => True
  | .value _ _ => False
  | _ => True

theorem Fault.OfInstruction.ne_stackOverflow {op : Opcode} {fault : Fault}
    (h : fault.OfInstruction op) : fault ≠ .stackOverflow := by
  rintro rfl
  exact h

/-- The run has ended with a stack overflow. -/
def Status.Overflown (s : Status) : Prop := s.outcome? = some (.error .stackOverflow)

namespace Machine

theorem fail_overflown_iff (m : Machine) (active : Nat) (fault : Fault) :
    (m.fail active fault).Overflown ↔ fault = .stackOverflow := by
  rw [Status.Overflown, fail, Status.outcome?, Option.some_inj, Except.error.injEq]

theorem deliver_not_overflown (m : Machine) (results : List Value) (callers : List Caller) :
    ¬ (m.deliver results callers).Overflown := by
  induction callers generalizing m with
  | nil => exact nofun
  | cons caller rest ih =>
      obtain ⟨frame, delivery⟩ := caller
      cases delivery with
      | forward => exact ih m.leave
      | store first wanted =>
          cases h : Exec.storeResults first wanted results ⟨frame, m.heap⟩ with
          | ok a s =>
              rw [deliver_store_ok rest h]
              exact nofun
          | error fault s =>
              rw [deliver_store_error rest h, fail_overflown_iff]
              exact (Exec.raises_storeResults first wanted results h).ne_stackOverflow

theorem enter_overflown_iff (m : Machine) (proto : Prototype) (upvalues : List CellRef)
    (args : List Value) (fileUpvalues : Nat) (callers : List Caller) :
    (m.enter proto upvalues args fileUpvalues callers).Overflown ↔ m.limits.depth ≤ m.depth := by
  rcases Nat.lt_or_ge m.depth m.limits.depth with hroom | hfull
  · rw [enter_room hroom]
    exact ⟨nofun, fun hfull => absurd hroom (Nat.not_lt.mpr hfull)⟩
  · rw [enter_full hfull, fail_overflown_iff]
    exact ⟨fun _ => hfull, fun _ => rfl⟩

/-- Only the call of a closure can overflow the stack. -/
theorem call_overflown_iff (host : Host) (m : Machine) (callee : Value) (args : List Value)
    (callers : List Caller) :
    (m.call host callee args callers).Overflown ↔
      (∃ ref, callee = .closure ref) ∧ m.limits.depth ≤ m.depth := by
  cases callee with
  | closure ref =>
      rw [call_closure, enter_overflown_iff]
      exact ⟨fun hfull => ⟨⟨ref, rfl⟩, hfull⟩, And.right⟩
  | host name =>
      refine ⟨fun hover => absurd hover ?_, nofun⟩
      cases h : (host name args m.heap.tables).outcome with
      | ok results =>
          rw [call_host_ok callers h]
          exact deliver_not_overflown _ _ _
      | error message =>
          rw [call_host_error callers h, fail_overflown_iff]
          exact nofun
  | _ =>
      rw [call_of_not_callable host m rfl, fail_overflown_iff]
      exact ⟨nofun, nofun⟩

theorem attempt_ne_stackOverflow {m m' : Machine} {f f' : Frame} {i : Instruction} {fault : Fault}
    (h : m.attempt f i = (.error fault, m', f')) : fault ≠ .stackOverflow := by
  rcases attempt_error_cases h with ⟨-, -, ⟨limit, rfl⟩ | rfl⟩ | ⟨op, s, -, hx, -, -⟩
  · exact nofun
  · exact nofun
  · exact (Exec.raises_execute i op hx).ne_stackOverflow

theorem begin_overflown_iff (host : Host) (m : Machine) (entry : Entry) :
    (m.begin host entry).Overflown ↔ entry.StartsActivation ∧ m.limits.depth ≤ m.depth := by
  cases entry with
  | prototype proto upvalues args fileUpvalues =>
      rw [begin, callPrototype, enter_overflown_iff]
      exact (and_iff_right trivial).symm
  | value callee args =>
      rw [begin, callValue, call_overflown_iff]
      cases callee <;> simp [Entry.StartsActivation]
  | chunk chunk env =>
      refine (enter_overflown_iff (m.withHeap _) _ _ _ _ _).trans ?_
      exact (and_iff_right trivial).symm

end Machine

namespace Running

theorem follow_overflown_iff (host : Host) (r : Running) (next : Next) :
    (r.follow host next).Overflown ↔
      next.StartsActivation ∧ r.machine.limits.depth ≤ r.machine.depth := by
  cases next with
  | proceed => exact ⟨nofun, nofun⟩
  | call callee args first wanted =>
      rw [follow, Machine.call_overflown_iff]
      cases callee <;> simp [Next.StartsActivation]
  | tailCall callee args =>
      rw [follow, Machine.call_overflown_iff]
      cases callee <;> simp [Next.StartsActivation]
  | finish results =>
      exact ⟨fun hover => absurd hover (Machine.deliver_not_overflown _ _ _), nofun⟩

/-- A step overflows the stack when it is to start an activation and there is no room. -/
theorem step_overflown_iff (host : Host) (r : Running) :
    (r.step host).Overflown ↔ r.StartsActivation ∧ r.machine.limits.depth ≤ r.machine.depth := by
  cases hcode : r.frame.proto.code[r.frame.pc]? with
  | none =>
      rw [step_end hcode, follow_overflown_iff]
      refine ⟨nofun, ?_⟩
      rintro ⟨⟨i, next, m, f, hcode', -⟩, -⟩
      rw [hcode] at hcode'
      cases hcode'
  | some i =>
      obtain ⟨⟨x, m, f⟩, hx⟩ : ∃ result, r.machine.attempt r.frame i = result := ⟨_, rfl⟩
      obtain ⟨hdepth, hlimits⟩ := Machine.attempt_counts hx
      cases x with
      | ok next =>
          rw [step_of_attempt_ok hcode hx, follow_overflown_iff, hdepth, hlimits]
          refine and_congr_left fun _ => ⟨fun hnext => ⟨i, next, m, f, hcode, hx, hnext⟩, ?_⟩
          rintro ⟨i', next', m', f', hcode', hx', hnext⟩
          rw [hcode] at hcode'
          cases hcode'
          rw [hx] at hx'
          cases hx'
          exact hnext
      | error fault =>
          rw [step_of_attempt_error hcode hx, fail, Machine.fail_overflown_iff]
          refine ⟨fun hfault => absurd hfault (Machine.attempt_ne_stackOverflow hx), ?_⟩
          rintro ⟨⟨i', next', m', f', hcode', hx', -⟩, -⟩
          rw [hcode] at hcode'
          cases hcode'
          rw [hx] at hx'
          cases hx'

end Running

/-- A run that ends with an outcome has it from the start, or comes to it in a step. -/
theorem Status.exists_ends_iff {host : Host} {s : Status} {outcome : Outcome} :
    (∃ final, s.Ends host final outcome) ↔ s.outcome? = some outcome ∨
      ∃ steps r, s.run host steps = .running r ∧ (r.step host).outcome? = some outcome := by
  constructor
  · rintro ⟨final, steps, hrun⟩
    induction steps with
    | zero =>
        left
        rw [run] at hrun
        rw [hrun]
        rfl
    | succ steps ih =>
        cases hbefore : s.run host steps with
        | finished m outcome' =>
            rw [run_add, hbefore, run_finished] at hrun
            exact ih (hbefore.trans hrun)
        | running r =>
            rw [run_succ hbefore] at hrun
            exact Or.inr ⟨steps, r, hbefore, by rw [hrun]; rfl⟩
  · rintro (houtcome | ⟨steps, r, hrun, houtcome⟩)
    · exact ⟨_, ends_of_outcome? 0 houtcome⟩
    · exact ⟨_, ends_of_outcome? (steps + 1) (by rwa [run_succ hrun])⟩

namespace Machine

/-- In the course of a call an activation is to begin while the depth is `depth`. -/
def ActivatesAt (host : Host) (m : Machine) (entry : Entry) (depth : Nat) : Prop :=
  (entry.StartsActivation ∧ m.depth = depth) ∨
    ∃ steps r, (m.begin host entry).run host steps = .running r ∧ r.StartsActivation ∧
      r.machine.depth = depth

/-- **The depth of calls is bracketed.** A call leaves the depth as it was, whatever its
outcome. If it was not above the limit, all instructions are carried out at depths from 1
up to the limit, and the call overflows the stack if and only if an activation is to
begin, be it by a tail call, while the depth is at the limit. -/
theorem depth_bracketed (host : Host) (m : Machine) (entry : Entry) :
    (∀ final outcome, (m.begin host entry).Ends host final outcome → final.depth = m.depth) ∧
    (m.depth ≤ m.limits.depth →
      (∀ steps r, (m.begin host entry).run host steps = .running r →
        1 ≤ r.machine.depth ∧ r.machine.depth ≤ m.limits.depth) ∧
      ((∃ final, (m.begin host entry).Ends host final (.error .stackOverflow)) ↔
        m.ActivatesAt host entry m.limits.depth)) := by
  have hreached (steps : Nat) := (begin_bracketed host m entry).run host steps
  refine ⟨?_, fun hstart => ⟨?_, ?_⟩⟩
  · rintro final outcome ⟨steps, hrun⟩
    have hend := hreached steps
    rw [hrun] at hend
    exact hend.depth
  · intro steps r hrun
    have hrunning := hreached steps
    rw [hrun] at hrunning
    have hdepth : r.machine.depth = m.depth + (r.callers.length + 1) := hrunning.depth
    exact ⟨hdepth ▸ Nat.le_add_left 1 _, hrunning.within (Nat.succ_pos _)⟩
  · rw [Status.exists_ends_iff]
    refine or_congr ?_ (exists_congr fun steps => exists_congr fun r => and_congr_right ?_)
    · refine (begin_overflown_iff host m entry).trans (and_congr_right fun _ => ?_)
      exact ⟨fun hfull => Nat.le_antisymm hstart hfull, fun hfull => hfull.ge⟩
    · intro hrun
      have hrunning := hreached steps
      rw [hrun] at hrunning
      have hlimit : r.machine.limits.depth = m.limits.depth := hrunning.limits
      have hwithin : r.machine.depth ≤ m.limits.depth := hrunning.within (Nat.succ_pos _)
      refine (r.step_overflown_iff host).trans (and_congr_right fun _ => ?_)
      rw [hlimit]
      exact ⟨fun hfull => Nat.le_antisymm hwithin hfull, fun hfull => hfull.ge⟩

end Machine

/-- A function that hands over to the empty function nested in it. -/
def Prototype.handover : Prototype where
  code := #[.ofABx .closure 0 0, .ofABC .tailCall 0 1 0 false]
  protos := [{}]

/-- A tail call at the limit overflows the stack, and the depth is restored. -/
theorem Machine.depth_bracketed_handover :
    ∃ final : Machine,
      (begin (Host.library Value.text) { limits := ⟨2, none⟩, depth := 1 }
        (.prototype .handover [] [] 0)).Ends (Host.library Value.text) final
        (.error .stackOverflow) ∧
      final.depth = 1 ∧
      ActivatesAt (Host.library Value.text) { limits := ⟨2, none⟩, depth := 1 }
        (.prototype .handover [] [] 0) 2 := by
  have hends : (begin (Host.library Value.text) { limits := ⟨2, none⟩, depth := 1 }
      (.prototype .handover [] [] 0)).Ends (Host.library Value.text) _ (.error .stackOverflow) :=
    Status.ends_of_outcome? 2 (by decide +kernel)
  obtain ⟨hdepth, hlimit⟩ := depth_bracketed (Host.library Value.text)
    { limits := ⟨2, none⟩, depth := 1 } (.prototype .handover [] [] 0)
  obtain ⟨-, hoverflow⟩ := hlimit (by decide)
  exact ⟨_, hends, hdepth _ _ hends, hoverflow.mp ⟨_, hends⟩⟩

end LuaBytecode
