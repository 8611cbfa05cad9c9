import Mathlib
import LuaBytecode.Proofs.Correspondence
import LuaBytecode.Proofs.Machine

/-! # Runs of corresponding functions

Two runs that are alike, up to the functions behind activations and closures,
stay alike at every step: neither gets ahead, and they end in the same way.
-/

namespace LuaBytecode

/-- The same limits, counters and output, and heaps that are alike. -/
structure Machine.Alike (R : Prototype → Prototype → Prop) (m m' : Machine) : Prop where
  limits : m.limits = m'.limits
  depth : m.depth = m'.depth
  executed : m.executed = m'.executed
  printed : m.printed = m'.printed
  heap : m.heap.Alike R m'.heap

structure Caller.Alike (R : Prototype → Prototype → Prop) (c c' : Caller) : Prop where
  frame : c.frame.Alike R c'.frame
  delivery : c.delivery = c'.delivery

structure Running.Alike (R : Prototype → Prototype → Prop) (r r' : Running) : Prop where
  machine : r.machine.Alike R r'.machine
  frame : r.frame.Alike R r'.frame
  callers : List.Forall₂ (Caller.Alike R) r.callers r'.callers

/-- Both under way and alike, or both ended with the same outcome. -/
inductive Status.Alike (R : Prototype → Prototype → Prop) : Status → Status → Prop
  | running {r r' : Running} : r.Alike R r' → Alike R (.running r) (.running r')
  | finished {m m' : Machine} {outcome : Outcome} : m.Alike R m' →
      Alike R (.finished m outcome) (.finished m' outcome)

theorem Status.Alike.outcome?_eq {R : Prototype → Prototype → Prop} {s s' : Status}
    (hs : s.Alike R s') : s.outcome? = s'.outcome? := by
  cases hs <;> rfl

variable {K : Correspondence} {host : Host}

namespace Machine

variable {m m' : Machine} {callers callers' : List Caller}

theorem Alike.withHeap (hm : m.Alike K.rel m') {h h' : Heap} (hh : h.Alike K.rel h') :
    (m.withHeap h).Alike K.rel (m'.withHeap h') :=
  { hm with heap := hh }

theorem Alike.leave (hm : m.Alike K.rel m') : m.leave.Alike K.rel m'.leave :=
  { hm with depth := congrArg (· - 1) hm.depth }

theorem Alike.tick (hm : m.Alike K.rel m') : m.tick.Alike K.rel m'.tick :=
  { hm with executed := congrArg (· + 1) hm.executed }

theorem Alike.withReply (hm : m.Alike K.rel m') (reply : HostReply) :
    (m.withReply reply).Alike K.rel (m'.withReply reply) :=
  { hm with
    printed := congrArg (· ++ reply.printed.toArray) hm.printed
    heap := { hm.heap with tables := rfl } }

theorem Alike.fail (hm : m.Alike K.rel m') (active : Nat) (fault : Fault) :
    (m.fail active fault).Alike K.rel (m'.fail active fault) := by
  refine .finished ?_
  induction active with
  | zero => exact hm
  | succ active ih => exact ih.leave

theorem Alike.overBudget? (hm : m.Alike K.rel m') : m.overBudget? = m'.overBudget? := by
  rw [Machine.overBudget?, Machine.overBudget?, hm.limits, hm.executed]

/-- An activation begins alike. -/
theorem scope_enter_alike {p p' : Prototype} (hp : K.rel p p') (upvalues : List CellRef)
    (args : List Value) (fileUpvalues : Nat) {h h' : Heap} (hh : h.Alike K.rel h') :
    (Scope.enter p upvalues args fileUpvalues h).Alike K.rel
      (Scope.enter p' upvalues args fileUpvalues h') := by
  unfold Scope.enter
  rw [K.stackSize hp, K.paramCount hp, K.upvalues_length hp]
  dsimp only
  generalize (args.take p'.paramCount.toNat).take p'.stackSize.toNat = given
  have hregisters := hh.newCells
    (given ++ List.replicate (p'.stackSize.toNat - given.length) .nil)
  refine ⟨⟨hp, hh.newCells_refs _, ?_, rfl, rfl⟩, hregisters.newCells _⟩
  dsimp only
  rw [hregisters.newCells_refs]

theorem Alike.enter (hm : m.Alike K.rel m') {p p' : Prototype} (hp : K.rel p p')
    (upvalues : List CellRef) (args : List Value) (fileUpvalues : Nat)
    (hcallers : List.Forall₂ (Caller.Alike K.rel) callers callers') :
    (m.enter p upvalues args fileUpvalues callers).Alike K.rel
      (m'.enter p' upvalues args fileUpvalues callers') := by
  rcases Nat.lt_or_ge m.depth m.limits.depth with hroom | hfull
  · have hroom' : m'.depth < m'.limits.depth := by rwa [← hm.depth, ← hm.limits]
    have hscope := scope_enter_alike hp upvalues args fileUpvalues hm.heap
    rw [enter_room hroom, enter_room hroom']
    refine .running ⟨{ hm with depth := ?_, heap := hscope.heap }, hscope.frame, hcallers⟩
    exact congrArg (· + 1) hm.depth
  · have hfull' : m'.limits.depth ≤ m'.depth := by rwa [← hm.depth, ← hm.limits]
    rw [enter_full hfull, enter_full hfull', hcallers.length_eq]
    exact hm.fail _ _

theorem Alike.deliver (hm : m.Alike K.rel m') (results : List Value)
    (hcallers : List.Forall₂ (Caller.Alike K.rel) callers callers') :
    (m.deliver results callers).Alike K.rel (m'.deliver results callers') := by
  induction hcallers generalizing m m' with
  | nil =>
      rw [deliver_nil, deliver_nil]
      exact .finished hm
  | @cons c c' rest rest' hc hrest ih =>
      obtain ⟨frame, delivery⟩ := c
      obtain ⟨frame', delivery'⟩ := c'
      obtain ⟨hframe, hdelivery⟩ := hc
      dsimp only at hframe hdelivery
      subst hdelivery
      cases delivery with
      | forward =>
          rw [deliver_forward, deliver_forward]
          exact ih hm.leave
      | store first wanted =>
          have hscope : Scope.Alike K.rel ⟨frame, m.heap⟩ ⟨frame', m'.heap⟩ := ⟨hframe, hm.heap⟩
          have hstore := Exec.respects_storeResults first wanted results hscope
          generalize hx : Exec.storeResults first wanted results ⟨frame, m.heap⟩ = x at hstore
          generalize hx' : Exec.storeResults first wanted results ⟨frame', m'.heap⟩ = x' at hstore
          cases hstore with
          | ok hs =>
              rw [deliver_store_ok rest hx, deliver_store_ok rest' hx']
              exact .running ⟨hm.withHeap hs.heap, hs.frame, hrest⟩
          | error hs =>
              rw [deliver_store_error rest hx, deliver_store_error rest' hx', hrest.length_eq]
              exact (hm.withHeap hs.heap).fail _ _

theorem Alike.call (hm : m.Alike K.rel m') (callee : Value) (args : List Value)
    (hcallers : List.Forall₂ (Caller.Alike K.rel) callers callers') :
    (m.call host callee args callers).Alike K.rel (m'.call host callee args callers') := by
  cases callee with
  | closure ref =>
      have hclosure := hm.heap.closures ref
      rw [call_closure, call_closure, ← hclosure.upvalues, ← hclosure.fileUpvalues]
      exact hm.enter hclosure.proto _ _ _ hcallers
  | host name =>
      have htables := hm.heap.tables
      cases hreply : (host name args m.heap.tables).outcome with
      | ok results =>
          have hreply' : (host name args m'.heap.tables).outcome = .ok results := by
            rwa [← htables]
          rw [call_host_ok callers hreply, call_host_ok callers' hreply', ← htables]
          exact (hm.withReply _).deliver results hcallers
      | error message =>
          have hreply' : (host name args m'.heap.tables).outcome = .error message := by
            rwa [← htables]
          rw [call_host_error callers hreply, call_host_error callers' hreply', ← htables,
            hcallers.length_eq]
          exact (hm.withReply _).fail _ _
  | _ =>
      rw [call_of_not_callable host m rfl, call_of_not_callable host m' rfl, hcallers.length_eq]
      exact hm.fail _ _

end Machine

namespace Running

variable {r r' : Running}

theorem Alike.fail (hr : r.Alike K.rel r') (fault : Fault) :
    (r.fail fault).Alike K.rel (r'.fail fault) := by
  rw [Running.fail, Running.fail, hr.callers.length_eq]
  exact hr.machine.fail _ _

theorem Alike.follow (hr : r.Alike K.rel r') (next : Next) :
    (r.follow host next).Alike K.rel (r'.follow host next) := by
  cases next with
  | proceed => exact .running hr
  | call callee args first wanted =>
      exact hr.machine.call callee args (.cons ⟨hr.frame, rfl⟩ hr.callers)
  | tailCall callee args => exact hr.machine.call callee args (.cons ⟨hr.frame, rfl⟩ hr.callers)
  | finish results => exact hr.machine.leave.deliver results hr.callers

theorem Alike.dispatch (hr : r.Alike K.rel r') (i : Instruction) :
    (r.dispatch host i).Alike K.rel (r'.dispatch host i) := by
  cases hop : i.opcode? with
  | none =>
      rw [dispatch_invalid hop, dispatch_invalid hop]
      exact hr.fail _
  | some op =>
      have hframe : Frame.Alike K.rel { r.frame with pc := r.frame.pc + 1 }
          { r'.frame with pc := r'.frame.pc + 1 } :=
        { hr.frame with pc := congrArg (· + 1) hr.frame.pc }
      have hscope : Scope.Alike K.rel ⟨_, r.machine.heap⟩ ⟨_, r'.machine.heap⟩ :=
        ⟨hframe, hr.machine.heap⟩
      have hexecute := Exec.respects_execute i op hscope
      generalize hx : i.execute op _ = x at hexecute
      generalize hx' : i.execute op _ = x' at hexecute
      cases hexecute with
      | ok hs =>
          have hafter : Alike K.rel ⟨_, _, r.callers⟩ ⟨_, _, r'.callers⟩ :=
            ⟨hr.machine.withHeap hs.heap, hs.frame, hr.callers⟩
          rw [dispatch_ok hop hx, dispatch_ok hop hx']
          exact hafter.follow _
      | error hs =>
          have hafter : Alike K.rel ⟨_, _, r.callers⟩ ⟨_, _, r'.callers⟩ :=
            ⟨hr.machine.withHeap hs.heap, hs.frame, hr.callers⟩
          rw [dispatch_error hop hx, dispatch_error hop hx']
          exact hafter.fail _

/-- Runs that are alike take the same step. -/
theorem Alike.step (hr : r.Alike K.rel r') : (r.step host).Alike K.rel (r'.step host) := by
  -- both fetch the same instruction, and count it before they look at the budget
  have hcode : r.frame.proto.code[r.frame.pc]? = r'.frame.proto.code[r'.frame.pc]? := by
    rw [K.code hr.frame.proto, hr.frame.pc]
  have htick : Alike K.rel { r with machine := r.machine.tick }
      { r' with machine := r'.machine.tick } := { hr with machine := hr.machine.tick }
  cases hi : r.frame.proto.code[r.frame.pc]? with
  | none =>
      rw [step_end hi, step_end (hcode.symm.trans hi)]
      exact hr.follow _
  | some i =>
      have hi' := hcode.symm.trans hi
      have hbudget := htick.machine.overBudget?
      cases hover : r.machine.tick.overBudget? with
      | some limit =>
          rw [step_overBudget hi hover, step_overBudget hi' (hbudget.symm.trans hover)]
          exact htick.fail _
      | none =>
          rw [step_dispatch hi hover, step_dispatch hi' (hbudget.symm.trans hover)]
          exact htick.dispatch i

end Running

/-- Runs that are alike stay alike, step for step. -/
theorem Status.Alike.run {s s' : Status} (hs : s.Alike K.rel s') (steps : Nat) :
    (s.run host steps).Alike K.rel (s'.run host steps) := by
  induction steps generalizing s s' with
  | zero => exact hs
  | succ steps ih =>
      cases hs with
      | running hr => exact ih hr.step
      | finished hm => exact .finished hm

end LuaBytecode
