import Mathlib
import LuaBytecode.Machine.Step

/-! # Equations of the machine

What each part of a step comes to, once it is known how the action inside it
went. Proofs about runs use these and never open the definitions.
-/

namespace LuaBytecode

/-! ## New closures -/

theorem Heap.closure_newClosure (h : Heap) (c : Closure) (ref : ClosureRef) :
    (h.newClosure c).2.closure ref = if ref = h.closures.size then c else h.closure ref := by
  rw [closure, closure, Heap.newClosure, Array.getD_eq_getD_getElem?,
    Array.getD_eq_getD_getElem?, Array.getElem?_push]
  split <;> rfl

namespace Exec

theorem createClosure_none {s : Scope} {bx : Nat} (h : s.frame.proto.protos[bx]? = none) :
    createClosure bx s =
      .error (.outOfRange .prototype bx s.frame.proto.protos.length) s := by
  show EStateM.bind (lookup _ _ _) _ s = _
  unfold EStateM.bind lookup
  rw [h]

theorem createClosure_some {s : Scope} {bx : Nat} {child : Prototype}
    (h : s.frame.proto.protos[bx]? = some child) :
    createClosure bx s = (captureAll child.upvalues >>= fun upvalues =>
      newClosure { proto := child, upvalues, fileUpvalues := s.frame.fileUpvalues }) s := by
  show EStateM.bind (lookup _ _ _) _ s = _
  unfold EStateM.bind lookup
  rw [h]

end Exec

namespace Machine

/-- The machine after a function of the host has answered. -/
def withReply (m : Machine) (reply : HostReply) : Machine :=
  { m with heap.tables := reply.tables, printed := m.printed ++ reply.printed.toArray }

/-! ## Actions -/

theorem perform_ok {α : Type} {m : Machine} {frame : Frame} {action : Exec α} {a : α}
    {s : Scope} (h : action ⟨frame, m.heap⟩ = .ok a s) :
    m.perform frame action = (.ok a, m.withHeap s.heap, s.frame) := by
  obtain ⟨limits, depth, executed, heap, printed⟩ := m
  unfold perform
  dsimp only at h ⊢
  rw [h]
  rfl

theorem perform_error {α : Type} {m : Machine} {frame : Frame} {action : Exec α}
    {fault : Fault} {s : Scope} (h : action ⟨frame, m.heap⟩ = .error fault s) :
    m.perform frame action = (.error fault, m.withHeap s.heap, s.frame) := by
  obtain ⟨limits, depth, executed, heap, printed⟩ := m
  unfold perform
  dsimp only at h ⊢
  rw [h]
  rfl

/-- One instruction by itself: it is counted, the budget is checked, and it is
carried out up to the point where another activation is to go on. -/
def attempt (m : Machine) (frame : Frame) (i : Instruction) :
    Except Fault Next × Machine × Frame :=
  match m.tick.overBudget? with
  | some limit => (.error (.budgetExceeded limit), m.tick, frame)
  | none =>
    match i.opcode? with
    | none => (.error (.invalidOpcode i.opcodeNumber), m.tick, frame)
    | some op => m.tick.perform { frame with pc := frame.pc + 1 } (i.execute op)

theorem attempt_ok_cases {m m' : Machine} {f f' : Frame} {i : Instruction} {next : Next}
    (h : m.attempt f i = (.ok next, m', f')) :
    ∃ op s, i.opcode? = some op ∧
      i.execute op ⟨{ f with pc := f.pc + 1 }, m.heap⟩ = .ok next s ∧
      m' = m.tick.withHeap s.heap ∧ f' = s.frame := by
  unfold attempt at h
  split at h
  · cases h
  split at h
  · cases h
  rename_i op hop
  cases hx : i.execute op ⟨{ f with pc := f.pc + 1 }, m.heap⟩ with
  | ok next' s =>
      rw [perform_ok (m := m.tick) hx] at h
      cases h
      exact ⟨op, s, hop, hx, rfl, rfl⟩
  | error fault s =>
      rw [perform_error (m := m.tick) hx] at h
      cases h

/-- An instruction is refused before it does anything, or it faults while it is carried out. -/
theorem attempt_error_cases {m m' : Machine} {f f' : Frame} {i : Instruction} {fault : Fault}
    (h : m.attempt f i = (.error fault, m', f')) :
    (m' = m.tick ∧ f' = f ∧
      ((∃ limit, fault = .budgetExceeded limit) ∨ fault = .invalidOpcode i.opcodeNumber)) ∨
    ∃ op s, i.opcode? = some op ∧
      i.execute op ⟨{ f with pc := f.pc + 1 }, m.heap⟩ = .error fault s ∧
      m' = m.tick.withHeap s.heap ∧ f' = s.frame := by
  unfold attempt at h
  split at h
  · cases h
    exact .inl ⟨rfl, rfl, .inl ⟨_, rfl⟩⟩
  split at h
  · cases h
    exact .inl ⟨rfl, rfl, .inr rfl⟩
  rename_i op hop
  cases hx : i.execute op ⟨{ f with pc := f.pc + 1 }, m.heap⟩ with
  | ok next s =>
      rw [perform_ok (m := m.tick) hx] at h
      cases h
  | error fault' s =>
      rw [perform_error (m := m.tick) hx] at h
      cases h
      exact .inr ⟨op, s, hop, hx, rfl, rfl⟩

/-! ## Calls and returns -/

@[simp]
theorem heap_repeat_leave (m : Machine) (n : Nat) : (Nat.repeat leave n m).heap = m.heap := by
  induction n with
  | zero => rfl
  | succ n ih => exact ih

theorem enter_full {m : Machine} (h : m.limits.depth ≤ m.depth) (proto : Prototype)
    (upvalues : List CellRef) (args : List Value) (fileUpvalues : Nat) (callers : List Caller) :
    m.enter proto upvalues args fileUpvalues callers = m.fail callers.length .stackOverflow :=
  if_pos h

theorem enter_room {m : Machine} (h : m.depth < m.limits.depth) (proto : Prototype)
    (upvalues : List CellRef) (args : List Value) (fileUpvalues : Nat) (callers : List Caller) :
    m.enter proto upvalues args fileUpvalues callers
      = .running
          { machine :=
              { m with
                depth := m.depth + 1
                heap := (Scope.enter proto upvalues args fileUpvalues m.heap).heap }
            frame := (Scope.enter proto upvalues args fileUpvalues m.heap).frame
            callers } :=
  if_neg (Nat.not_le.mpr h)

theorem deliver_nil (m : Machine) (results : List Value) :
    m.deliver results [] = .finished m (.ok results) := rfl

theorem deliver_forward (m : Machine) (results : List Value) (frame : Frame)
    (rest : List Caller) :
    m.deliver results (⟨frame, .forward⟩ :: rest) = m.leave.deliver results rest := rfl

theorem deliver_store_ok {m : Machine} {results : List Value} {frame : Frame}
    {first wanted : Nat} {s : Scope} (rest : List Caller)
    (h : Exec.storeResults first wanted results ⟨frame, m.heap⟩ = .ok () s) :
    m.deliver results (⟨frame, .store first wanted⟩ :: rest)
      = .running ⟨m.withHeap s.heap, s.frame, rest⟩ := by
  rw [deliver, perform_ok h]

theorem deliver_store_error {m : Machine} {results : List Value} {frame : Frame}
    {first wanted : Nat} {s : Scope} {fault : Fault} (rest : List Caller)
    (h : Exec.storeResults first wanted results ⟨frame, m.heap⟩ = .error fault s) :
    m.deliver results (⟨frame, .store first wanted⟩ :: rest)
      = (m.withHeap s.heap).fail (rest.length + 1) fault := by
  rw [deliver, perform_error h]

theorem call_closure (host : Host) (m : Machine) (ref : ClosureRef) (args : List Value)
    (callers : List Caller) :
    m.call host (.closure ref) args callers
      = m.enter (m.heap.closure ref).proto (m.heap.closure ref).upvalues args
          (m.heap.closure ref).fileUpvalues callers := rfl

theorem call_host_ok {host : Host} {m : Machine} {name : String} {args results : List Value}
    (callers : List Caller) (h : (host name args m.heap.tables).outcome = .ok results) :
    m.call host (.host name) args callers
      = (m.withReply (host name args m.heap.tables)).deliver results callers := by
  simp only [call, h]
  rfl

theorem call_host_error {host : Host} {m : Machine} {name message : String} {args : List Value}
    (callers : List Caller) (h : (host name args m.heap.tables).outcome = .error message) :
    m.call host (.host name) args callers
      = (m.withReply (host name args m.heap.tables)).fail callers.length (.host message) := by
  simp only [call, h]
  rfl

theorem call_of_not_callable (host : Host) (m : Machine) {callee : Value}
    (h : callee.isCallable = false) (args : List Value) (callers : List Caller) :
    m.call host callee args callers
      = m.fail callers.length (.typeMismatch .call .function callee.kind) := by
  cases callee with
  | closure ref => cases h
  | host name => cases h
  | _ => rfl

end Machine

namespace Running

/-! ## Steps -/

theorem dispatch_invalid {host : Host} {r : Running} {i : Instruction}
    (h : i.opcode? = none) : r.dispatch host i = r.fail (.invalidOpcode i.opcodeNumber) := by
  unfold dispatch
  rw [h]

theorem dispatch_ok {host : Host} {r : Running} {i : Instruction} {op : Opcode} {next : Next}
    {s : Scope} (hop : i.opcode? = some op)
    (h : i.execute op ⟨{ r.frame with pc := r.frame.pc + 1 }, r.machine.heap⟩ = .ok next s) :
    r.dispatch host i = follow host ⟨r.machine.withHeap s.heap, s.frame, r.callers⟩ next := by
  obtain ⟨machine, frame, callers⟩ := r
  unfold dispatch
  rw [hop]
  dsimp only
  rw [Machine.perform_ok h]

theorem dispatch_error {host : Host} {r : Running} {i : Instruction} {op : Opcode}
    {fault : Fault} {s : Scope} (hop : i.opcode? = some op)
    (h : i.execute op ⟨{ r.frame with pc := r.frame.pc + 1 }, r.machine.heap⟩ = .error fault s) :
    r.dispatch host i = fail ⟨r.machine.withHeap s.heap, s.frame, r.callers⟩ fault := by
  obtain ⟨machine, frame, callers⟩ := r
  unfold dispatch
  rw [hop]
  dsimp only
  rw [Machine.perform_error h]

theorem step_end {host : Host} {r : Running} (h : r.frame.proto.code[r.frame.pc]? = none) :
    r.step host = r.follow host (.finish []) := by
  unfold step
  rw [h]

theorem step_overBudget {host : Host} {r : Running} {i : Instruction} {limit : Nat}
    (h : r.frame.proto.code[r.frame.pc]? = some i)
    (hbudget : r.machine.tick.overBudget? = some limit) :
    r.step host = fail { r with machine := r.machine.tick } (.budgetExceeded limit) := by
  unfold step
  rw [h]
  dsimp only
  rw [hbudget]

theorem step_dispatch {host : Host} {r : Running} {i : Instruction}
    (h : r.frame.proto.code[r.frame.pc]? = some i)
    (hbudget : r.machine.tick.overBudget? = none) :
    r.step host = dispatch host { r with machine := r.machine.tick } i := by
  unfold step
  rw [h]
  dsimp only
  rw [hbudget]

/-- A step carries out one instruction, then follows what it says. -/
theorem step_of_attempt_ok {host : Host} {r : Running} {i : Instruction} {next : Next}
    {m : Machine} {f : Frame} (hcode : r.frame.proto.code[r.frame.pc]? = some i)
    (h : r.machine.attempt r.frame i = (.ok next, m, f)) :
    r.step host = follow host ⟨m, f, r.callers⟩ next := by
  unfold Machine.attempt at h
  split at h
  · cases h
  · rename_i hbudget
    split at h
    · cases h
    · rename_i op hop
      rw [step_dispatch hcode hbudget, dispatch, hop]
      dsimp only
      rw [h]

/-- An instruction that faults ends the run. -/
theorem step_of_attempt_error {host : Host} {r : Running} {i : Instruction} {fault : Fault}
    {m : Machine} {f : Frame} (hcode : r.frame.proto.code[r.frame.pc]? = some i)
    (h : r.machine.attempt r.frame i = (.error fault, m, f)) :
    r.step host = fail ⟨m, f, r.callers⟩ fault := by
  unfold Machine.attempt at h
  split at h
  · rename_i limit hbudget
    cases h
    exact step_overBudget hcode hbudget
  · rename_i hbudget
    split at h
    · rename_i hop
      cases h
      rw [step_dispatch hcode hbudget, dispatch_invalid hop]
    · rename_i op hop
      rw [step_dispatch hcode hbudget, dispatch, hop]
      dsimp only
      rw [h]

end Running

/-! ## Runs -/

namespace Status

def machine : Status → Machine
  | .running r => r.machine
  | .finished m _ => m

def outcome? : Status → Option Outcome
  | .running _ => none
  | .finished _ outcome => some outcome

def running? : Status → Option Running
  | .running r => some r
  | .finished _ _ => none

theorem exists_running {s : Status} {p : Running → Prop} [DecidablePred p]
    (h : s.running?.any fun r => decide (p r)) : ∃ r, s = .running r ∧ p r := by
  cases s with
  | running r => exact ⟨r, rfl, of_decide_eq_true h⟩
  | finished m outcome => cases h

/-- The run ends after some number of steps. -/
def Ends (host : Host) (s : Status) (m : Machine) (outcome : Outcome) : Prop :=
  ∃ steps, s.run host steps = .finished m outcome

theorem ends_of_outcome? {host : Host} {s : Status} (steps : Nat) {outcome : Outcome}
    (h : (s.run host steps).outcome? = some outcome) :
    s.Ends host (s.run host steps).machine outcome := by
  refine ⟨steps, ?_⟩
  generalize s.run host steps = final at h ⊢
  cases final with
  | running r => cases h
  | finished m outcome' =>
      cases h
      rfl

theorem run_finished (host : Host) (steps : Nat) (m : Machine) (outcome : Outcome) :
    run host steps (.finished m outcome) = .finished m outcome := by
  cases steps <;> rfl

theorem run_running (host : Host) (steps : Nat) (r : Running) :
    run host (steps + 1) (.running r) = run host steps (r.step host) := rfl

theorem run_add (host : Host) (n k : Nat) (s : Status) :
    s.run host (n + k) = (s.run host n).run host k := by
  induction n generalizing s with
  | zero => rw [Nat.zero_add, run]
  | succ n ih =>
      cases s with
      | finished m outcome => rw [run_finished, run_finished, run_finished]
      | running r =>
          rw [Nat.add_right_comm, run_running, run_running]
          exact ih (r.step host)

/-- One more step at the end of a run. -/
theorem run_succ {host : Host} {steps : Nat} {s : Status} {r : Running}
    (h : s.run host steps = .running r) : s.run host (steps + 1) = r.step host := by
  rw [run_add, h]
  rfl

/-- A run that is still going was going before. -/
theorem exists_running_before {host : Host} {n k : Nat} {s : Status} {r : Running}
    (h : s.run host (n + k) = .running r) : ∃ before, s.run host n = .running before := by
  rw [run_add] at h
  cases hbefore : s.run host n with
  | running before => exact ⟨before, rfl⟩
  | finished m outcome =>
      rw [hbefore, run_finished] at h
      cases h

end Status

end LuaBytecode
