import Mathlib
import LuaBytecode.Proofs.Effects

/-! # Activations along a run

Variables depend on two parts of a run: the heap, and the stack of activations.
One step does little to these. The topmost activation works on what it holds or
renews some of its registers; then an activation of a closure begins on top of
it, or activations end and the one that is topmost now takes over. `Move` lists
these moves, and `Running.step_moves` takes every step apart into them, so that
what holds of each move holds along every run.
-/

namespace LuaBytecode

/-- The heap and the live activations, the topmost first. -/
structure Snapshot where
  heap : Heap
  frames : List Frame

def Running.snapshot (r : Running) : Snapshot where
  heap := r.machine.heap
  frames := r.frame :: r.callers.map Caller.frame

def Status.snapshot : Status → Snapshot
  | .running r => r.snapshot
  | .finished m _ => ⟨m.heap, []⟩

theorem Status.heap_snapshot (s : Status) : s.snapshot.heap = s.machine.heap := by
  cases s with
  | running r => rfl
  | finished m outcome => rfl

/-! ## Moves -/

/-- The registers from `first` on get new cells with the values they have. -/
def Scope.renew (s : Scope) (first : Nat) : Scope :=
  let (fresh, heap) := s.heap.newCells ((s.frame.registers.drop first).map s.heap.cell)
  ⟨{ s.frame with registers := s.frame.registers.take first ++ fresh }, heap⟩

theorem Instruction.execute_close (i : Instruction) (s : Scope) :
    i.execute .close s = .ok .proceed (s.renew i.a.toNat) := rfl

/-- A new activation of a closure. -/
def Heap.activate (h : Heap) (ref : ClosureRef) (args : List Value) : Scope :=
  Scope.enter (h.closure ref).proto (h.closure ref).upvalues args (h.closure ref).fileUpvalues h

theorem Heap.closures_activate (h : Heap) (ref : ClosureRef) (args : List Value) :
    (h.activate ref args).heap.closures = h.closures := by
  simp only [activate, Scope.enter, newCells]

theorem Heap.closure_activate (h : Heap) (ref : ClosureRef) (args : List Value)
    (ref' : ClosureRef) : (h.activate ref args).heap.closure ref' = h.closure ref' := by
  rw [closure, closure, closures_activate]

/-- Which way the stack of activations may go in a step. -/
inductive Turn where
  | grow
  | shrink

/-- What a step is made of. `closing level first` says that the activation at
`level` may renew its registers from `first` on; levels are counted from the
bottom of the stack. -/
inductive Move (turn : Turn) (closing : Nat → Nat → Prop) : Snapshot → Snapshot → Prop
  | work {h h' : Heap} {f f' : Frame} (rest : List Frame) :
      Scope.Changes .everything ⟨f, h⟩ ⟨f', h'⟩ →
      Move turn closing ⟨h, f :: rest⟩ ⟨h', f' :: rest⟩
  | close {rest : List Frame} {first : Nat} (h : Heap) (f : Frame) :
      closing rest.length first →
      Move turn closing ⟨h, f :: rest⟩
        ⟨(Scope.renew ⟨f, h⟩ first).heap, (Scope.renew ⟨f, h⟩ first).frame :: rest⟩
  | enter (h : Heap) (frames : List Frame) (ref : ClosureRef) (args : List Value) :
      turn = .grow →
      Move turn closing ⟨h, frames⟩
        ⟨(h.activate ref args).heap, (h.activate ref args).frame :: frames⟩
  | leave (h : Heap) (f : Frame) (rest : List Frame) :
      turn = .shrink → Move turn closing ⟨h, f :: rest⟩ ⟨h, rest⟩
  | host (h : Heap) (frames : List Frame) (tables : Array Table) :
      Move turn closing ⟨h, frames⟩ ⟨{ h with tables }, frames⟩

abbrev Moves (turn : Turn) (closing : Nat → Nat → Prop) : Snapshot → Snapshot → Prop :=
  Relation.ReflTransGen (Move turn closing)

/-- The next instruction of the run is a `Close` from `first` on, in the
activation at `level`. -/
def Running.Closes (r : Running) (level first : Nat) : Prop :=
  level = r.callers.length ∧ ∃ i, r.frame.proto.code[r.frame.pc]? = some i ∧
    i.opcode? = some .close ∧ i.a.toNat = first

/-! ## Steps are made of moves -/

variable {closing : Nat → Nat → Prop}

theorem Moves.leave_all (h : Heap) (frames : List Frame) :
    Moves .shrink closing ⟨h, frames⟩ ⟨h, []⟩ := by
  induction frames with
  | nil => exact .refl
  | cons f rest ih => exact .head (.leave h f rest rfl) ih

namespace Machine

theorem perform_after {α : Type} {m m' : Machine} {f f' : Frame} {action : Exec α}
    {x : Except Fault α} (h : m.perform f action = (x, m', f')) :
    m'.heap = (action.after ⟨f, m.heap⟩).heap ∧ f' = (action.after ⟨f, m.heap⟩).frame := by
  cases hx : action ⟨f, m.heap⟩ with
  | ok a s =>
      rw [perform_ok hx] at h
      cases h
      rw [Exec.after_ok hx]
      exact ⟨rfl, rfl⟩
  | error fault s =>
      rw [perform_error hx] at h
      cases h
      rw [Exec.after_error hx]
      exact ⟨rfl, rfl⟩

theorem fail_moves (m : Machine) (frames : List Frame) (active : Nat) (fault : Fault) :
    Moves .shrink closing ⟨m.heap, frames⟩ (m.fail active fault).snapshot := by
  have hheap : (m.fail active fault).snapshot = ⟨m.heap, []⟩ := by
    rw [fail, Status.snapshot, heap_repeat_leave]
  rw [hheap]
  exact .leave_all m.heap frames

theorem deliver_moves (m : Machine) (results : List Value) (callers : List Caller) :
    Moves .shrink closing ⟨m.heap, callers.map Caller.frame⟩
      (m.deliver results callers).snapshot := by
  induction callers generalizing m with
  | nil => exact .refl
  | cons caller rest ih =>
      obtain ⟨frame, delivery⟩ := caller
      cases delivery with
      | forward =>
          rw [deliver_forward]
          exact .head (.leave m.heap frame _ rfl) (ih m.leave)
      | store first wanted =>
          have hconfined : Exec.Confined .everything (Exec.storeResults first wanted results) :=
            Exec.confined_storeResults (by decide) _ _ _
          cases hs : Exec.storeResults first wanted results ⟨frame, m.heap⟩ with
          | ok _ s =>
              rw [deliver_store_ok rest hs]
              exact .single (.work _ (Exec.confined_of_ok hconfined hs))
          | error fault s =>
              rw [deliver_store_error rest hs]
              exact .head (.work _ (Exec.confined_of_error hconfined hs))
                (fail_moves (m.withHeap s.heap) _ _ _)

theorem call_moves (host : Host) (m : Machine) (callee : Value) (args : List Value)
    (callers : List Caller) :
    ∃ turn, Moves turn closing ⟨m.heap, callers.map Caller.frame⟩
      (m.call host callee args callers).snapshot := by
  cases callee with
  | closure ref =>
      rw [call_closure]
      rcases Nat.lt_or_ge m.depth m.limits.depth with hroom | hfull
      · rw [enter_room hroom]
        exact ⟨.grow, .single (.enter m.heap _ ref args rfl)⟩
      · rw [enter_full hfull]
        exact ⟨.shrink, fail_moves m _ _ _⟩
  | host name =>
      cases hreply : (host name args m.heap.tables).outcome with
      | ok results =>
          rw [call_host_ok callers hreply]
          exact ⟨.shrink, .head (.host m.heap _ _) (deliver_moves (m.withReply _) _ _)⟩
      | error message =>
          rw [call_host_error callers hreply]
          exact ⟨.shrink, .head (.host m.heap _ _) (fail_moves (m.withReply _) _ _ _)⟩
  | _ =>
      rw [call_of_not_callable host m rfl]
      exact ⟨.shrink, fail_moves m _ _ _⟩

end Machine

namespace Running

theorem follow_moves (host : Host) (r : Running) (next : Next) :
    ∃ turn, Moves turn closing r.snapshot (r.follow host next).snapshot := by
  cases next with
  | proceed => exact ⟨.shrink, .refl⟩
  | call callee args first wanted =>
      exact Machine.call_moves host r.machine callee args
        (⟨r.frame, .store first wanted⟩ :: r.callers)
  | tailCall callee args =>
      exact Machine.call_moves host r.machine callee args (⟨r.frame, .forward⟩ :: r.callers)
  | finish results =>
      exact ⟨.shrink, .head (.leave _ _ _ rfl)
        (Machine.deliver_moves r.machine.leave results r.callers)⟩

theorem fail_moves (r : Running) (fault : Fault) :
    Moves .shrink closing r.snapshot (r.fail fault).snapshot :=
  Machine.fail_moves r.machine _ _ _

/-- The instruction by itself works on the topmost activation, or closes some of
its registers. -/
theorem attempt_moves (turn : Turn) {r : Running} {i : Instruction}
    (hcode : r.frame.proto.code[r.frame.pc]? = some i) {x : Except Fault Next} {m : Machine}
    {f : Frame} (h : r.machine.attempt r.frame i = (x, m, f)) :
    Moves turn r.Closes r.snapshot ⟨m.heap, f :: r.callers.map Caller.frame⟩ := by
  unfold Machine.attempt at h
  split at h
  · cases h
    exact .refl
  split at h
  · cases h
    exact .refl
  rename_i op hop
  obtain ⟨hheap, hframe⟩ := Machine.perform_after h
  have hpc : Scope.Changes .everything ⟨r.frame, r.machine.heap⟩
      ⟨{ r.frame with pc := r.frame.pc + 1 }, r.machine.heap⟩ :=
    .setPc _ ⟨r.frame, r.machine.heap⟩ (r.frame.pc + 1)
  rw [hheap, hframe]
  by_cases hclose : op = .close
  · subst hclose
    have hcloses : r.Closes (r.callers.map Caller.frame).length i.a.toNat :=
      ⟨List.length_map _, i, hcode, hop, rfl⟩
    rw [Exec.after_ok (i.execute_close _)]
    exact .head (.work _ hpc) (.single (.close _ _ hcloses))
  · exact .single (.work _ (hpc.trans (Exec.confined_execute i hclose _)))

/-- **A step is made of moves**, and closes only what its instruction closes. -/
theorem step_moves (host : Host) (r : Running) :
    ∃ turn, Moves turn r.Closes r.snapshot (r.step host).snapshot := by
  cases hcode : r.frame.proto.code[r.frame.pc]? with
  | none =>
      rw [step_end hcode]
      exact follow_moves host r _
  | some i =>
      obtain ⟨⟨x, m, f⟩, hx⟩ : ∃ result, r.machine.attempt r.frame i = result := ⟨_, rfl⟩
      cases x with
      | ok next =>
          rw [step_of_attempt_ok hcode hx]
          obtain ⟨turn, hfollow⟩ := follow_moves host ⟨m, f, r.callers⟩ next
          exact ⟨turn, (attempt_moves turn hcode hx).trans hfollow⟩
      | error fault =>
          rw [step_of_attempt_error hcode hx]
          refine ⟨.shrink, (attempt_moves .shrink hcode hx).trans ?_⟩
          exact fail_moves ⟨m, f, r.callers⟩ fault

end Running

/-! ## What moves keep -/

/-- What no move can break. -/
def Snapshot.Stable (P : Snapshot → Prop) : Prop :=
  ∀ ⦃turn closing s s'⦄, Move turn closing s s' → P s → P s'

theorem Snapshot.Stable.moves {P : Snapshot → Prop} (hP : Stable P) {turn : Turn}
    {s s' : Snapshot} (h : Moves turn closing s s') (hs : P s) : P s' := by
  induction h with
  | refl => exact hs
  | tail _ hmove ih => exact hP hmove ih

/-- What no move can break holds all along a run. -/
theorem Snapshot.Stable.run {P : Snapshot → Prop} (hP : Stable P) (host : Host) {s : Status}
    (hs : P s.snapshot) (steps : Nat) : P (s.run host steps).snapshot := by
  induction steps generalizing s with
  | zero => exact hs
  | succ steps ih =>
      cases s with
      | finished m outcome => exact hs
      | running r =>
          obtain ⟨turn, hmoves⟩ := r.step_moves host
          exact ih (hP.moves hmoves hs)

/-- What no move can break holds all along a call by the host. -/
theorem Machine.stable_callValue {P : Snapshot → Prop} (hP : Snapshot.Stable P) (host : Host)
    {m : Machine} (hm : P ⟨m.heap, []⟩) (callee : Value) (args : List Value) (steps : Nat) :
    P ((m.callValue host callee args).run host steps).snapshot := by
  obtain ⟨turn, hmoves⟩ : ∃ turn, Moves turn (fun _ _ => False) ⟨m.heap, []⟩
      (m.callValue host callee args).snapshot := call_moves host m callee args []
  exact hP.run host (hP.moves hmoves hm) steps

/-- Cells and closures are only added, and closures never change. -/
structure Heap.Extends (h h' : Heap) : Prop where
  cells : h.cells.size ≤ h'.cells.size
  closures : h.closures.size ≤ h'.closures.size
  closure : ∀ ref < h.closures.size, h'.closure ref = h.closure ref

namespace Heap.Extends

theorem refl (h : Heap) : h.Extends h := ⟨Nat.le_refl _, Nat.le_refl _, fun _ _ => rfl⟩

theorem trans {h h' h'' : Heap} (hh : h.Extends h') (hh' : h'.Extends h'') : h.Extends h'' where
  cells := hh.cells.trans hh'.cells
  closures := hh.closures.trans hh'.closures
  closure ref hlt := (hh'.closure ref (hlt.trans_le hh.closures)).trans (hh.closure ref hlt)

theorem newCells (h : Heap) (values : List Value) : h.Extends (h.newCells values).2 :=
  ⟨by simp [Heap.newCells], Nat.le_refl _, fun _ _ => rfl⟩

end Heap.Extends

theorem Heap.activate_extends (h : Heap) (ref : ClosureRef) (args : List Value) :
    h.Extends (h.activate ref args).heap :=
  (Extends.newCells h _).trans (Extends.newCells _ _)

theorem Move.extends {turn : Turn} {s s' : Snapshot} (h : Move turn closing s s') :
    s.heap.Extends s'.heap := by
  cases h with
  | work rest hchanges => exact ⟨hchanges.cells.ge, hchanges.closures, hchanges.closure⟩
  | close h f hclosing => exact .newCells h _
  | enter h frames ref args => exact h.activate_extends ref args
  | leave h f rest => exact .refl h
  | host h frames tables => exact ⟨Nat.le_refl _, Nat.le_refl _, fun _ _ => rfl⟩

theorem Heap.extends_stable (h : Heap) : Snapshot.Stable fun s => h.Extends s.heap :=
  fun _ _ _ _ hmove hs => hs.trans hmove.extends

/-! ## The same activation at another time -/

namespace Snapshot

/-- The activation at a level, counted from the bottom of the stack. -/
def activation? (s : Snapshot) (level : Nat) : Option Frame := s.frames.reverse[level]?

@[simp]
theorem activation?_top (h : Heap) (f : Frame) (rest : List Frame) :
    activation? ⟨h, f :: rest⟩ rest.length = some f := by
  simp [activation?]

theorem activation?_cons_of_ne (h h' : Heap) {f : Frame} {rest : List Frame} {level : Nat}
    (hne : level ≠ rest.length) :
    activation? ⟨h, f :: rest⟩ level = activation? ⟨h', rest⟩ level := by
  unfold activation?
  rw [List.reverse_cons]
  rcases Nat.lt_or_gt_of_ne hne with hlt | hgt
  · exact List.getElem?_append_left (by simpa using hlt)
  · simp only [List.getElem?_eq_none_iff.mpr, List.length_append, List.length_reverse,
      List.length_singleton, Nat.succ_le_of_lt hgt, hgt.le]

theorem activation?_isSome_iff (s : Snapshot) (level : Nat) :
    (∃ f, s.activation? level = some f) ↔ level < s.frames.length := by
  unfold activation?
  constructor
  · rintro ⟨f, hf⟩
    simpa using (List.getElem?_eq_some_iff.mp hf).1
  · intro hlt
    exact ⟨_, List.getElem?_eq_getElem (by simpa using hlt)⟩

end Snapshot

/-- `f'` is the activation `f` at a later time. Its registers stand for the same
cells, save for `closed` ones, whose cells did not exist when there were `size`
cells. -/
structure Frame.Continues (closed : Nat → Prop) (size : Nat) (f f' : Frame) : Prop where
  proto : f'.proto = f.proto
  upvalues : f'.upvalues = f.upvalues
  length : f'.registers.length = f.registers.length
  register : ∀ r x, f'.registers[r]? = some x → f.registers[r]? = some x ∨ closed r ∧ size ≤ x

namespace Frame.Continues

variable {closed : Nat → Prop} {size : Nat} {f f' f'' : Frame}

theorem refl (closed : Nat → Prop) (size : Nat) (f : Frame) : f.Continues closed size f :=
  ⟨rfl, rfl, rfl, fun _ _ hx => Or.inl hx⟩

theorem trans {size' : Nat} (h : f.Continues closed size f') (hle : size ≤ size')
    (h' : f'.Continues closed size' f'') : f.Continues closed size f'' where
  proto := h'.proto.trans h.proto
  upvalues := h'.upvalues.trans h.upvalues
  length := h'.length.trans h.length
  register := by
    intro r x hx
    rcases h'.register r x hx with hx' | ⟨hclosed, hge⟩
    · exact h.register r x hx'
    · exact Or.inr ⟨hclosed, hle.trans hge⟩

/-- A register that is not closed keeps its cell. -/
theorem register_eq (h : f.Continues closed size f') {r : Nat} (hr : ¬ closed r) :
    f'.registers[r]? = f.registers[r]? := by
  cases hx : f'.registers[r]? with
  | none =>
      rw [List.getElem?_eq_none_iff, h.length] at hx
      rw [List.getElem?_eq_none hx]
  | some x =>
      rcases h.register r x hx with hsame | ⟨hclosed, -⟩
      · exact hsame.symm
      · exact absurd hclosed hr

end Frame.Continues

namespace Scope

theorem renew_registers (s : Scope) (first : Nat) :
    (s.renew first).frame.registers
      = s.frame.registers.take first
        ++ List.range' s.heap.cells.size (s.frame.registers.length - first) := by
  simp [renew, Heap.newCells]

@[simp]
theorem renew_length (s : Scope) (first : Nat) :
    (s.renew first).frame.registers.length = s.frame.registers.length := by
  rw [renew_registers, List.length_append, List.length_take, List.length_range']
  omega

theorem renew_register_of_lt (s : Scope) {first r : Nat} (hlt : r < first) :
    (s.renew first).frame.registers[r]? = s.frame.registers[r]? := by
  rcases Nat.lt_or_ge r s.frame.registers.length with hr | hr
  · rw [renew_registers, List.getElem?_append_left (by simp; omega),
      List.getElem?_take_of_lt hlt]
  · rw [List.getElem?_eq_none hr, List.getElem?_eq_none (by simpa using hr)]

/-- A renewed register has a cell behind all that were there. -/
theorem renew_register_of_le (s : Scope) {first r : Nat} (hle : first ≤ r)
    (hr : r < s.frame.registers.length) :
    (s.renew first).frame.registers[r]? = some (s.heap.cells.size + (r - first)) := by
  rw [renew_registers, List.getElem?_append_right (by simp; omega), List.length_take,
    Nat.min_eq_left (by omega), List.getElem?_range' (by omega), Nat.one_mul]

theorem renew_continues {closed : Nat → Prop} {first : Nat} (hclosed : ∀ r, first ≤ r → closed r)
    (s : Scope) : s.frame.Continues closed s.heap.cells.size (s.renew first).frame where
  proto := rfl
  upvalues := rfl
  length := s.renew_length first
  register := by
    intro r x hx
    rcases Nat.lt_or_ge r first with hlt | hge
    · rw [s.renew_register_of_lt hlt] at hx
      exact Or.inl hx
    · have hr : r < s.frame.registers.length := by
        rw [← s.renew_length first]
        exact (List.getElem?_eq_some_iff.mp hx).1
      rw [s.renew_register_of_le hge hr] at hx
      cases hx
      exact Or.inr ⟨hclosed r hge, Nat.le_add_right _ _⟩

theorem Changes.continues {e : Extent} {s s' : Scope} (h : s.Changes e s') (closed : Nat → Prop)
    (size : Nat) : s.frame.Continues closed size s'.frame where
  proto := h.proto_eq
  upvalues := h.upvalues_eq
  length := by rw [h.registers_eq]
  register := by
    intro r x hx
    rw [h.registers_eq] at hx
    exact Or.inl hx

end Scope

/-- An activation that is there before and after a move goes on as the same. -/
theorem Move.continues {turn : Turn} {s s' : Snapshot} (h : Move turn closing s s') {level : Nat}
    {f f' : Frame} (hf : s.activation? level = some f) (hf' : s'.activation? level = some f') :
    f.Continues (fun r => ∃ first ≤ r, closing level first) s.heap.cells.size f' := by
  cases h with
  | @work h h' g g' rest hchanges =>
      by_cases htop : level = rest.length
      · subst htop
        rw [Snapshot.activation?_top] at hf hf'
        cases hf
        cases hf'
        exact hchanges.continues _ _
      · rw [Snapshot.activation?_cons_of_ne _ h htop] at hf hf'
        rw [hf] at hf'
        cases hf'
        exact .refl _ _ f
  | @close rest first h g hclosing =>
      by_cases htop : level = rest.length
      · subst htop
        rw [Snapshot.activation?_top] at hf hf'
        cases hf
        cases hf'
        exact Scope.renew_continues (fun r hle => ⟨first, hle, hclosing⟩) ⟨f, h⟩
      · rw [Snapshot.activation?_cons_of_ne _ h htop] at hf hf'
        rw [hf] at hf'
        cases hf'
        exact .refl _ _ f
  | enter h frames ref args =>
      have hlt : level < frames.length := (Snapshot.activation?_isSome_iff _ _).mp ⟨f, hf⟩
      rw [Snapshot.activation?_cons_of_ne _ h hlt.ne, hf] at hf'
      cases hf'
      exact .refl _ _ f
  | leave h g rest =>
      have hlt : level < rest.length := (Snapshot.activation?_isSome_iff _ _).mp ⟨f', hf'⟩
      rw [Snapshot.activation?_cons_of_ne _ h hlt.ne, hf'] at hf
      cases hf
      exact .refl _ _ f
  | host h frames tables =>
      have hsame : some f = some f' := hf.symm.trans hf'
      cases hsame
      exact .refl _ _ f

namespace Moves

theorem extends_heap {turn : Turn} {s s' : Snapshot} (h : Moves turn closing s s') :
    s.heap.Extends s'.heap :=
  s.heap.extends_stable.moves h (.refl s.heap)

theorem length_le {s s' : Snapshot} (h : Moves .grow closing s s') :
    s.frames.length ≤ s'.frames.length := by
  induction h with
  | refl => exact Nat.le_refl _
  | tail _ hmove ih =>
      refine ih.trans ?_
      cases hmove with
      | leave _ _ _ hturn => cases hturn
      | enter h frames => exact Nat.le_succ frames.length
      | _ => exact Nat.le_refl _

theorem length_ge {s s' : Snapshot} (h : Moves .shrink closing s s') :
    s'.frames.length ≤ s.frames.length := by
  induction h with
  | refl => exact Nat.le_refl _
  | tail _ hmove ih =>
      refine Nat.le_trans ?_ ih
      cases hmove with
      | enter _ _ _ _ hturn => cases hturn
      | leave h f rest => exact Nat.le_succ rest.length
      | _ => exact Nat.le_refl _

/-- An activation that is there before and after some moves is there in between,
as the stack goes one way only. -/
theorem continues {turn : Turn} {s s' : Snapshot} (h : Moves turn closing s s') {level : Nat}
    {f f' : Frame} (hf : s.activation? level = some f) (hf' : s'.activation? level = some f') :
    f.Continues (fun r => ∃ first ≤ r, closing level first) s.heap.cells.size f' := by
  induction h generalizing f' with
  | refl =>
      rw [hf] at hf'
      cases hf'
      exact .refl _ _ f
  | @tail mid s' hmid hmove ih =>
      have hlt : level < s.frames.length := (Snapshot.activation?_isSome_iff _ _).mp ⟨f, hf⟩
      have hlt' : level < s'.frames.length := (Snapshot.activation?_isSome_iff _ _).mp ⟨f', hf'⟩
      have hbetween : level < mid.frames.length := by
        cases turn with
        | grow => exact hlt.trans_le (length_le hmid)
        | shrink => exact hlt'.trans_le (length_ge (.single hmove))
      obtain ⟨g, hg⟩ := (Snapshot.activation?_isSome_iff _ _).mpr hbetween
      exact (ih hg).trans (extends_heap hmid).cells (hmove.continues hg hf')

end Moves

namespace Running

/-- The live activation at a level; that of the topmost is the number of callers. -/
abbrev activation? (r : Running) (level : Nat) : Option Frame := r.snapshot.activation? level

theorem activation?_isSome_iff (r : Running) (level : Nat) :
    (∃ f, r.activation? level = some f) ↔ level ≤ r.callers.length := by
  rw [activation?, Snapshot.activation?_isSome_iff, snapshot, List.length_cons, List.length_map,
    Nat.lt_succ_iff]

theorem activation?_callers_length (r : Running) :
    r.activation? r.callers.length = some r.frame := by
  have h := Snapshot.activation?_top r.machine.heap r.frame (r.callers.map Caller.frame)
  rwa [List.length_map] at h

/-- The run gets from one state to another, the activation at `level` being live
all the time, and all steps are made from states as `allowed`. -/
inductive Lives (host : Host) (level : Nat) (allowed : Running → Prop) : Running → Running → Prop
  | refl {r : Running} : level ≤ r.callers.length → Lives host level allowed r r
  | step {r r' r'' : Running} : Lives host level allowed r r' → allowed r' →
      r'.step host = .running r'' → level ≤ r''.callers.length → Lives host level allowed r r''

/-- The next step does not close register `q` of the activation at `level`. -/
def KeepsOpen (level q : Nat) (r : Running) : Prop := ∀ first, r.Closes level first → q < first

variable {host : Host} {level : Nat} {allowed : Running → Prop} {r r' : Running} {f f' : Frame}

/-- Only `Close` closes registers. -/
theorem keepsOpen_of_opcode {i : Instruction} (hcode : r.frame.proto.code[r.frame.pc]? = some i)
    (hop : i.opcode? ≠ some .close) (level q : Nat) : r.KeepsOpen level q := by
  rintro first ⟨-, i', hcode', hop', -⟩
  rw [hcode] at hcode'
  cases hcode'
  exact absurd hop' hop

theorem step_extends (h : r.step host = .running r') :
    r.machine.heap.Extends r'.machine.heap := by
  obtain ⟨turn, hmoves⟩ := r.step_moves host
  rw [h] at hmoves
  exact hmoves.extends_heap

theorem step_continues (h : r.step host = .running r') (hf : r.activation? level = some f)
    (hf' : r'.activation? level = some f') :
    f.Continues (fun q => ∃ first ≤ q, r.Closes level first) r.machine.heap.cells.size f' := by
  obtain ⟨turn, hmoves⟩ := r.step_moves host
  rw [h] at hmoves
  exact hmoves.continues hf hf'

namespace Lives

theorem le (h : Lives host level allowed r r') : level ≤ r'.callers.length := by
  cases h with
  | refl hle => exact hle
  | step _ _ _ hle => exact hle

theorem extends_heap (h : Lives host level allowed r r') :
    r.machine.heap.Extends r'.machine.heap := by
  induction h with
  | refl _ => exact .refl _
  | step _ _ hstep _ ih => exact ih.trans (step_extends hstep)

theorem trans {r'' : Running} (h : r.Lives host level allowed r')
    (h' : r'.Lives host level allowed r'') : r.Lives host level allowed r'' := by
  induction h' with
  | refl _ => exact h
  | step _ hallowed hstep hle ih => exact ih.step hallowed hstep hle

theorem mono {allowed' : Running → Prop} (h : r.Lives host level allowed r')
    (hallowed : ∀ q, allowed q → allowed' q) : r.Lives host level allowed' r' := by
  induction h with
  | refl hle => exact .refl hle
  | step _ hq hstep hle ih => exact ih.step (hallowed _ hq) hstep hle

/-- The steps of the run one after the other. -/
theorem run (h : r.Lives host level allowed r') :
    ∃ n, (Status.running r).run host n = .running r' ∧
      ∀ k < n, ∃ q, (Status.running r).run host k = .running q ∧ allowed q := by
  induction h with
  | refl _ => exact ⟨0, rfl, fun k hk => absurd hk (Nat.not_lt_zero k)⟩
  | @step mid last _ hallowed hstep _ ih =>
      obtain ⟨n, hrun, hbefore⟩ := ih
      refine ⟨n + 1, (Status.run_succ hrun).trans hstep, fun k hk => ?_⟩
      rcases Nat.lt_succ_iff_lt_or_eq.mp hk with hlt | rfl
      · exact hbefore k hlt
      · exact ⟨mid, hrun, hallowed⟩

/-- The activation at the bottom lives as long as the run, through whatever states the run goes. -/
theorem of_run {n : Nat} (hrun : (Status.running r).run host n = .running r')
    (hallowed : ∀ k < n, ∀ q, (Status.running r).run host k = .running q → allowed q) :
    Lives host 0 allowed r r' := by
  induction n generalizing r' with
  | zero =>
      cases hrun
      exact .refl (Nat.zero_le _)
  | succ n ih =>
      obtain ⟨mid, hmid⟩ := Status.exists_running_before hrun
      rw [Status.run_succ hmid] at hrun
      have hbefore := ih hmid fun k hk => hallowed k (Nat.lt_succ_of_lt hk)
      exact .step hbefore (hallowed n (Nat.lt_succ_self n) mid hmid) hrun (Nat.zero_le _)

theorem bottom {n : Nat} (hrun : (Status.running r).run host n = .running r') :
    Lives host 0 (fun _ => True) r r' :=
  of_run hrun fun _ _ _ _ => trivial

/-- **An activation goes on as the same one as long as it lives.** -/
theorem continues {closed : Nat → Prop}
    (hclosed : ∀ r, allowed r → ∀ q first, first ≤ q → r.Closes level first → closed q)
    (h : Lives host level allowed r r') (hf : r.activation? level = some f)
    (hf' : r'.activation? level = some f') :
    f.Continues closed r.machine.heap.cells.size f' := by
  induction h generalizing f' with
  | refl _ =>
      rw [hf] at hf'
      cases hf'
      exact .refl _ _ f
  | @step mid r' hmid hallowed hstep _ ih =>
      obtain ⟨g, hg⟩ := (mid.activation?_isSome_iff level).mpr hmid.le
      have hlast := step_continues hstep hg hf'
      refine (ih hg).trans hmid.extends_heap.cells { hlast with register := ?_ }
      intro q x hx
      rcases hlast.register q x hx with hsame | ⟨⟨first, hle, hcloses⟩, hge⟩
      · exact Or.inl hsame
      · exact Or.inr ⟨hclosed mid hallowed q first hle hcloses, hge⟩

end Lives

end Running

end LuaBytecode
