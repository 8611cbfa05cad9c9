import Mathlib
import LuaBytecode.Proofs.Calls

/-! # Captured variables

A closure captures variables, not values. For a register of the activation that
makes it, the closure gets the cell of the register; for an upvalue, the cell of
the upvalue. From then on the two are one variable: whoever writes it, all others
read the new value. This lasts until the activation closes the register. Then
the register goes on with a cell of its own, which no closure made before can ever
get at, and the closures keep the cell they have.
-/

namespace LuaBytecode

/-! ## Steps -/

namespace Running

variable {host : Host} {r r' : Running} {i : Instruction} {op : Opcode}

/-- A step that does not end the run has carried out its instruction. -/
theorem execute_of_step (hcode : r.frame.proto.code[r.frame.pc]? = some i)
    (hop : i.opcode? = some op) (hstep : r.step host = .running r') :
    ∃ next s,
      i.execute op ⟨{ r.frame with pc := r.frame.pc + 1 }, r.machine.heap⟩ = .ok next s ∧
      follow host ⟨r.machine.tick.withHeap s.heap, s.frame, r.callers⟩ next = .running r' := by
  cases hbudget : r.machine.tick.overBudget? with
  | some limit =>
      rw [step_overBudget hcode hbudget] at hstep
      cases hstep
  | none =>
      rw [step_dispatch hcode hbudget] at hstep
      cases hx : i.execute op ⟨{ r.frame with pc := r.frame.pc + 1 }, r.machine.heap⟩ with
      | error fault s =>
          rw [dispatch_error (r := { r with machine := r.machine.tick }) hop hx] at hstep
          cases hstep
      | ok next s =>
          rw [dispatch_ok (r := { r with machine := r.machine.tick }) hop hx] at hstep
          exact ⟨next, s, rfl, hstep⟩

/-- `Closure` makes a closure that has, for each of its upvalues, the cell at the
place it comes from, and puts it into R[A]. -/
theorem step_closure (hcode : r.frame.proto.code[r.frame.pc]? = some i)
    (hop : i.opcode? = some .closure) (hstep : r.step host = .running r') :
    ∃ child refs x,
      r.frame.proto.protos[i.bx]? = some child ∧
      child.upvalues.map (fun u => u.cell? r.frame) = refs.map some ∧
      r.frame.registers[i.a.toNat]? = some x ∧
      r'.machine.heap = Heap.setCell (r.machine.heap.newClosure
        { proto := child, upvalues := refs, fileUpvalues := r.frame.fileUpvalues }).2 x
          (.closure r.machine.heap.closures.size) ∧
      r'.frame = { r.frame with pc := r.frame.pc + 1 } ∧ r'.callers = r.callers := by
  obtain ⟨next, s, hx, hfollow⟩ := execute_of_step hcode hop hstep
  let s₀ : Scope := ⟨{ r.frame with pc := r.frame.pc + 1 }, r.machine.heap⟩
  have hassign : Exec.assign i.a.toNat (Exec.createClosure i.bx) s₀ = .ok next s := hx
  cases hchild : r.frame.proto.protos[i.bx]? with
  | none =>
      rw [Exec.assign, Exec.bind_error (Exec.createClosure_none (s := s₀) hchild)] at hassign
      cases hassign
  | some child =>
      have hcreate := Exec.createClosure_some (s := s₀) hchild
      cases hall : Exec.captureAll child.upvalues s₀ with
      | error fault s₁ =>
          rw [Exec.bind_error hall] at hcreate
          rw [Exec.assign, Exec.bind_error hcreate] at hassign
          cases hassign
      | ok refs s₁ =>
          obtain ⟨rfl, hrefs⟩ := Exec.captureAll_ok hall
          rw [Exec.bind_ok hall] at hcreate
          rw [Exec.assign, Exec.bind_ok hcreate] at hassign
          cases hregister : r.frame.registers[i.a.toNat]? with
          | none =>
              rw [Exec.bind_error (Exec.setReg_error hregister _)] at hassign
              cases hassign
          | some x =>
              rw [Exec.bind_ok (Exec.setReg_ok hregister _)] at hassign
              cases hassign
              cases hfollow
              exact ⟨child, refs, x, rfl, hrefs, rfl, rfl, rfl, rfl⟩

/-- `Close` renews the registers from R[A] on. -/
theorem step_close {level first : Nat} (hcloses : r.Closes level first)
    (hstep : r.step host = .running r') :
    r'.machine.heap = (Scope.renew ⟨r.frame, r.machine.heap⟩ first).heap ∧
    r'.frame.registers = (Scope.renew ⟨r.frame, r.machine.heap⟩ first).frame.registers ∧
    r'.callers = r.callers := by
  obtain ⟨-, i, hcode, hop, rfl⟩ := hcloses
  obtain ⟨next, s, hx, hfollow⟩ := execute_of_step hcode hop hstep
  rw [i.execute_close] at hx
  cases hx
  cases hfollow
  exact ⟨rfl, rfl, rfl⟩

end Running

/-! ## Activations of a closure -/

/-- A call of a closure begins an activation of it, if it begins anything. -/
theorem Machine.call_running (host : Host) {m : Machine} {ref : ClosureRef} {args : List Value}
    {callers : List Caller} {r : Running}
    (h : m.call host (.closure ref) args callers = .running r) :
    r.frame = (m.heap.activate ref args).frame ∧
    r.machine.heap = (m.heap.activate ref args).heap ∧ r.callers = callers := by
  rw [call_closure] at h
  rcases Nat.lt_or_ge m.depth m.limits.depth with hroom | hfull
  · rw [enter_room hroom] at h
    cases h
    exact ⟨rfl, rfl, rfl⟩
  · rw [enter_full hfull] at h
    cases h

namespace Exec

theorem tailCall_callable {a : Nat} {s : Scope} {callee : Value}
    (hcallee : s.frame.register? s.heap a = some callee) (hcallable : callee.isCallable)
    (b c : Nat) :
    Exec.tailCall a b c s
      = (regs (a + 1) (b - 1) >>= fun args => pure (Next.tailCall callee args)) s := by
  rw [Exec.tailCall, bind_ok (reg_some hcallee), if_pos hcallable]

theorem regs_pure_ok {α : Type} {first count : Nat} {f : List Value → α} {s s' : Scope} {a : α}
    (h : (regs first count >>= fun values => pure (f values)) s = .ok a s') :
    s' = s ∧ ∃ values, a = f values := by
  rcases regs_cases first count s with ⟨values, hvalues, -⟩ | ⟨-, fault, hfault⟩
  · rw [bind_ok hvalues] at h
    cases h
    exact ⟨rfl, values, rfl⟩
  · rw [bind_error hfault] at h
    cases h

end Exec

namespace Running

variable {host : Host} {r r' : Running} {ref : ClosureRef} {level : Nat}

/-- The next instruction calls the value. -/
def Calls (callee : Value) (r : Running) : Prop :=
  ∃ i, r.frame.proto.code[r.frame.pc]? = some i ∧
    (i.opcode? = some .call ∨ i.opcode? = some .tailCall) ∧
    r.frame.register? r.machine.heap i.a.toNat = some callee

theorem step_calls (hcalls : r.Calls (.closure ref)) (hstep : r.step host = .running r') :
    ∃ args, r'.frame = (r.machine.heap.activate ref args).frame ∧
      r'.machine.heap = (r.machine.heap.activate ref args).heap := by
  obtain ⟨i, hcode, hop, hcallee⟩ := hcalls
  rcases hop with hop | hop
  · obtain ⟨next, s, hx, hfollow⟩ := execute_of_step hcode hop hstep
    obtain ⟨rfl, args, rfl⟩ :=
      Exec.regs_pure_ok ((Exec.call_callable hcallee rfl _ _).symm.trans hx)
    obtain ⟨hframe, hheap, -⟩ := Machine.call_running host hfollow
    exact ⟨args, hframe, hheap⟩
  · obtain ⟨next, s, hx, hfollow⟩ := execute_of_step hcode hop hstep
    obtain ⟨rfl, args, rfl⟩ :=
      Exec.regs_pure_ok ((Exec.tailCall_callable hcallee rfl _ _).symm.trans hx)
    obtain ⟨hframe, hheap, -⟩ := Machine.call_running host hfollow
    exact ⟨args, hframe, hheap⟩

/-- The activation at `level` is one of the closure `ref`: the host or an
instruction has called the closure, and what began then has lived since. -/
inductive Activates (host : Host) (ref : ClosureRef) (level : Nat) : Running → Prop
  | host {m : Machine} {args : List Value} {r : Running} : ref < m.heap.closures.size →
      m.callValue host (.closure ref) args = .running r → level = r.callers.length →
      Activates host ref level r
  | call {r r' : Running} : ref < r.machine.heap.closures.size → r.Calls (.closure ref) →
      r.step host = .running r' → level = r'.callers.length → Activates host ref level r'
  | step {r r' : Running} : Activates host ref level r → r.step host = .running r' →
      level ≤ r'.callers.length → Activates host ref level r'

end Running

/-- The upvalues of the activation are those of the closure, as many as there is
use for. -/
def Closure.Supplies (c : Closure) (f : Frame) : Prop :=
  f.upvalues.length = max c.proto.upvalues.length c.fileUpvalues ∧
  ∀ j < f.upvalues.length, ∀ x, c.upvalues[j]? = some x → f.upvalues[j]? = some x

theorem Heap.activate_supplies (h : Heap) (ref : ClosureRef) (args : List Value) :
    (h.closure ref).Supplies (h.activate ref args).frame := by
  obtain ⟨missing, hupvalues, -, hmissing⟩ := Scope.enter_upvalues (h.closure ref).proto
    (h.closure ref).upvalues args (h.closure ref).fileUpvalues h
  have hlength : (h.activate ref args).frame.upvalues.length
      = max (h.closure ref).proto.upvalues.length (h.closure ref).fileUpvalues := by
    rw [activate, hupvalues, List.length_append, List.length_range', hmissing, List.length_take]
    omega
  refine ⟨hlength, ?_⟩
  intro j hj x hx
  have hlt : j < (h.closure ref).upvalues.length := (List.getElem?_eq_some_iff.mp hx).1
  rw [hlength] at hj
  rw [activate, hupvalues, List.getElem?_append_left (by rw [List.length_take]; omega),
    List.getElem?_take_of_lt hj]
  exact hx

namespace Running

variable {host : Host} {r r' : Running} {ref : ClosureRef} {level : Nat}

theorem supplies_of_activate {h : Heap} {args : List Value} {f : Frame}
    (hframe : r.frame = (h.activate ref args).frame)
    (hheap : r.machine.heap = (h.activate ref args).heap)
    (hf : r.activation? r.callers.length = some f) :
    (r.machine.heap.closure ref).Supplies f := by
  rw [activation?_callers_length] at hf
  cases hf
  rw [hheap, Heap.closure_activate, hframe]
  exact h.activate_supplies ref args

/-- **The activations of a closure have its cells**, for as long as they live. -/
theorem Activates.supplies (h : r.Activates host ref level) :
    ref < r.machine.heap.closures.size ∧ level ≤ r.callers.length ∧
    ∀ f, r.activation? level = some f → (r.machine.heap.closure ref).Supplies f := by
  induction h with
  | @host m args r href hbegin hlevel =>
      obtain ⟨hframe, hheap, -⟩ := Machine.call_running host hbegin
      subst hlevel
      refine ⟨?_, Nat.le_refl _, fun f hf => supplies_of_activate hframe hheap hf⟩
      rw [hheap, Heap.closures_activate]
      exact href
  | @call r r' href hcalls hstep hlevel =>
      obtain ⟨args, hframe, hheap⟩ := step_calls hcalls hstep
      subst hlevel
      refine ⟨?_, Nat.le_refl _, fun f hf => supplies_of_activate hframe hheap hf⟩
      rw [hheap, Heap.closures_activate]
      exact href
  | @step r r' _ hstep hlevel ih =>
      obtain ⟨href, hlive, hsupplies⟩ := ih
      have hextends := step_extends hstep
      refine ⟨href.trans_le hextends.closures, hlevel, ?_⟩
      intro f' hf'
      obtain ⟨f, hf⟩ := (r.activation?_isSome_iff level).mpr hlive
      have hsame : f'.upvalues = f.upvalues := (step_continues hstep hf hf').upvalues
      rw [hextends.closure ref href, Closure.Supplies, hsame]
      exact hsupplies f hf

/-- The live activation `g` has the cell `x` as its upvalue `j`, from the closure
that it is an activation of. -/
def HasCaptured (host : Host) (x : CellRef) (r : Running) (g : Frame) (j : Nat) : Prop :=
  ∃ ref level, r.Activates host ref level ∧ r.activation? level = some g ∧
    j < g.upvalues.length ∧ (r.machine.heap.closure ref).upvalues[j]? = some x

theorem HasCaptured.upvalue {x : CellRef} {g : Frame} {j : Nat} (h : r.HasCaptured host x g j) :
    g.upvalues[j]? = some x := by
  obtain ⟨ref, level, hactivates, hg, hj, hx⟩ := h
  obtain ⟨-, -, hsupplies⟩ := hactivates.supplies
  exact (hsupplies g hg).2 j hj x hx

end Running

/-! ## Shared variables -/

theorem Exec.setUpvalue_ok {s : Scope} {a b : Nat} {v : Value} {x : CellRef}
    (hv : s.frame.register? s.heap a = some v) (hx : s.frame.upvalues[b]? = some x) :
    Exec.setUpvalue a b s = .ok .proceed ⟨s.frame, s.heap.setCell x v⟩ := by
  rw [Exec.setUpvalue, bind_ok (reg_some hv)]
  exact bind_ok (lookup_some hx s)

theorem Frame.upvalue?_setCell_self {f : Frame} {h : Heap} {x : CellRef} {j : Nat}
    (hj : f.upvalues[j]? = some x) (hlt : x < h.cells.size) (v : Value) :
    f.upvalue? (h.setCell x v) j = some v := by
  rw [upvalue?, hj, Option.map_some, Heap.cell_setCell_self hlt]

namespace Running

variable {host : Host} {r r' : Running} {level : Nat}

/-- Register `q` of the activation `f` is one variable with all upvalues that have
captured the cell `x`: they read the same value, and a write to any of them is
read by all. -/
structure Shares (host : Host) (x : CellRef) (f : Frame) (q : Nat) (r : Running) : Prop where
  cell : f.registers[q]? = some x
  read : ∀ g j, r.HasCaptured host x g j →
    g.upvalue? r.machine.heap j = f.register? r.machine.heap q
  setReg : ∀ v, ∃ h, Exec.setReg q v ⟨f, r.machine.heap⟩ = .ok () ⟨f, h⟩ ∧
    f.register? h q = some v ∧ ∀ g j, r.HasCaptured host x g j → g.upvalue? h j = some v
  setUpvalue : ∀ g j, r.HasCaptured host x g j → ∀ a v, g.register? r.machine.heap a = some v →
    ∃ h, Exec.setUpvalue a j ⟨g, r.machine.heap⟩ = .ok .proceed ⟨g, h⟩ ∧
      f.register? h q = some v ∧ ∀ g' j', r.HasCaptured host x g' j' → g'.upvalue? h j' = some v

theorem shares_of_register {x : CellRef} {f : Frame} {q : Nat} (hx : f.registers[q]? = some x)
    (hlt : x < r.machine.heap.cells.size) (host : Host) : r.Shares host x f q where
  cell := hx
  read := by
    intro g j hg
    rw [Frame.upvalue?, hg.upvalue, Frame.register?, hx]
  setReg := by
    intro v
    refine ⟨_, Exec.setReg_ok hx v, Frame.register?_setCell_self hx hlt v, ?_⟩
    intro g j hg
    exact Frame.upvalue?_setCell_self hg.upvalue hlt v
  setUpvalue := by
    intro g j hg a v hv
    refine ⟨_, Exec.setUpvalue_ok hv hg.upvalue, Frame.register?_setCell_self hx hlt v, ?_⟩
    intro g' j' hg'
    exact Frame.upvalue?_setCell_self hg'.upvalue hlt v

end Running

/-! ## Closed variables -/

theorem Heap.cell_newCells {h : Heap} {values : List Value} {j : Nat} {v : Value}
    (hv : values[j]? = some v) : (h.newCells values).2.cell (h.cells.size + j) = v := by
  simp [cell, newCells, Array.getD_eq_getD_getElem?, Array.getElem?_append_right, hv]

/-- Closing changes no value. -/
theorem Scope.renew_register? {s : Scope} (hlt : ∀ x ∈ s.frame.registers, x < s.heap.cells.size)
    (first q : Nat) :
    (s.renew first).frame.register? (s.renew first).heap q = s.frame.register? s.heap q := by
  rcases Nat.lt_or_ge q s.frame.registers.length with hq | hend
  · obtain ⟨x, hx⟩ : ∃ x, s.frame.registers[q]? = some x := ⟨_, List.getElem?_eq_getElem hq⟩
    rw [Frame.register?, Frame.register?, hx, Option.map_some]
    rcases Nat.lt_or_ge q first with hbelow | hge
    · rw [s.renew_register_of_lt hbelow, hx, Option.map_some]
      exact congrArg some (Heap.cell_newCells_of_lt (hlt x (List.mem_of_getElem? hx)) _)
    · rw [s.renew_register_of_le hge hq, Option.map_some]
      refine congrArg some (Heap.cell_newCells ?_)
      rw [List.getElem?_map, List.getElem?_drop, Nat.add_sub_cancel' hge, hx, Option.map_some]
  · rw [Frame.register?, Frame.register?, List.getElem?_eq_none hend,
      List.getElem?_eq_none (by rw [renew_length]; exact hend)]
    rfl

/-- Register `q` has nothing in common with the first `count` closures: its cell is
none of theirs, and no write to the one shows in the other. -/
structure Frame.Detached (f : Frame) (h : Heap) (q count : Nat) : Prop where
  notMem : ∀ y, f.registers[q]? = some y → ∀ ref < count, y ∉ (h.closure ref).upvalues
  setReg : ∀ v h', Exec.setReg q v ⟨f, h⟩ = .ok () ⟨f, h'⟩ →
    ∀ ref < count, ∀ x ∈ (h.closure ref).upvalues, h'.cell x = h.cell x
  setCell : ∀ ref < count, ∀ x ∈ (h.closure ref).upvalues, ∀ v,
    f.register? (h.setCell x v) q = f.register? h q

theorem Frame.detached_of_notMem {f : Frame} {h : Heap} {q count : Nat}
    (hcell : ∀ y, f.registers[q]? = some y → ∀ ref < count, y ∉ (h.closure ref).upvalues) :
    f.Detached h q count where
  notMem := hcell
  setReg := by
    intro v h' hset ref href x hx
    cases hy : f.registers[q]? with
    | none =>
        rw [Exec.setReg_error hy] at hset
        cases hset
    | some y =>
        rw [Exec.setReg_ok hy] at hset
        cases hset
        refine Heap.cell_setCell_of_ne h ?_ v
        rintro rfl
        exact hcell x hy ref href hx
  setCell := by
    intro ref href x hx v
    exact register?_setCell_of_ne (fun hq => hcell x hq ref href hx) v

namespace Running

variable {host : Host} {r r' : Running} {level : Nat}

/-- What a `Close` from `first` on does to the activation at `level`: `r'` is the
state after it. -/
structure Detaches (host : Host) (level first : Nat) (r r' : Running) : Prop where
  callers : r'.callers = r.callers
  /-- The registers below are in place. -/
  below : ∀ q < first, r'.frame.registers[q]? = r.frame.registers[q]?
  /-- No register has another value. -/
  register : ∀ q, r'.frame.register? r'.machine.heap q = r.frame.register? r.machine.heap q
  closure : ∀ ref, r'.machine.heap.closure ref = r.machine.heap.closure ref
  /-- No upvalue of a closure has another value. -/
  cell : ∀ ref, ∀ x ∈ (r.machine.heap.closure ref).upvalues,
    r'.machine.heap.cell x = r.machine.heap.cell x
  /-- From now on the closed registers have nothing in common with the closures
  that were there. -/
  detached : ∀ r'' f, r'.Lives host level (fun _ => True) r'' → r''.activation? level = some f →
    ∀ q, first ≤ q → f.Detached r''.machine.heap q r.machine.heap.closures.size

theorem close_detaches (hr : r.snapshot.Isolated) {first : Nat} (hcloses : r.Closes level first)
    (hstep : r.step host = .running r') : r.Detaches host level first r' := by
  obtain ⟨hheap, hregisters, hcallers⟩ := step_close hcloses hstep
  let s : Scope := ⟨r.frame, r.machine.heap⟩
  have hlt : ∀ x ∈ r.frame.registers, x < r.machine.heap.cells.size :=
    fun x hx => (hr.frames r.frame List.mem_cons_self).lt x (Or.inl hx)
  have hclosure : ∀ ref, r'.machine.heap.closure ref = r.machine.heap.closure ref := by
    intro ref
    rw [hheap]
    rfl
  refine ⟨hcallers, ?_, ?_, hclosure, ?_, ?_⟩
  · intro q hq
    rw [hregisters]
    exact s.renew_register_of_lt hq
  · intro q
    rw [Frame.register?, hregisters, hheap]
    exact Scope.renew_register? (s := s) hlt first q
  · intro ref x hx
    rw [hheap]
    exact Heap.cell_newCells_of_lt (hr.sound ref x hx) _
  · intro r'' f hlives hf q hq
    refine Frame.detached_of_notMem ?_
    intro y hy ref href hmem
    -- the cell is newer than all that the closures can have captured
    have hextends := hlives.extends_heap
    rw [hextends.closure ref (by rw [hheap]; exact href), hclosure] at hmem
    have hold : y < r.machine.heap.cells.size := hr.sound ref y hmem
    have hsize : r'.machine.heap.cells.size
        = r.machine.heap.cells.size + (r.frame.registers.length - first) := by
      rw [hheap]
      exact s.renew_size first
    have htop : r'.activation? level = some r'.frame := by
      rw [hcloses.1, ← hcallers]
      exact r'.activation?_callers_length
    have hcontinues : r'.frame.Continues (fun _ => True) r'.machine.heap.cells.size f :=
      hlives.continues (fun _ _ _ _ _ _ => trivial) htop hf
    rcases hcontinues.register q y hy with hsame | ⟨-, hnew⟩
    · have hqlt : q < r.frame.registers.length := by
        have hqlt' := (List.getElem?_eq_some_iff.mp hsame).1
        rwa [hregisters, Scope.renew_length] at hqlt'
      rw [hregisters, s.renew_register_of_le hq hqlt] at hsame
      cases hsame
      exact absurd hold (Nat.not_lt.mpr (Nat.le_add_right _ _))
    · rw [hsize] at hnew
      exact absurd hold (Nat.not_lt.mpr ((Nat.le_add_right _ _).trans hnew))

/-! ## Captured variables -/

/-- Upvalue `j` of the closure `k`, which the activation at `level` has just made,
is the cell `x`, and `u` says where in the activation that is. -/
structure Captures (host : Host) (level : Nat) (k : ClosureRef) (j : Nat) (u : UpvalueSource)
    (x : CellRef) (r : Running) : Prop where
  /-- The closure has the cell for the rest of the run, -/
  closure : ∀ n, (((Status.running r).run host n).machine.heap.closure k).upvalues[j]? = some x
  /-- and so has every activation of it. -/
  activation : ∀ n r' level' g, (Status.running r).run host n = .running r' →
    r'.Activates host k level' → r'.activation? level' = some g → r'.HasCaptured host x g j
  /-- An upvalue of the activation is the same one as long as the activation lives. -/
  upvalue : u.inStack = false → ∀ r' f, r.Lives host level (fun _ => True) r' →
    r'.activation? level = some f → f.upvalues[u.index.toNat]? = some x
  /-- A register is the same variable until it is closed. -/
  register : u.inStack = true → ∀ r' f, r.Lives host level (KeepsOpen level u.index.toNat) r' →
    r'.activation? level = some f → r'.Shares host x f u.index.toNat

/-- The place that an upvalue comes from has its cell. -/
theorem captured_cell {us : List UpvalueSource} {refs : List CellRef} {f : Frame}
    (hrefs : us.map (fun u => u.cell? f) = refs.map some) {j : Nat} {u : UpvalueSource}
    (hu : us[j]? = some u) : ∃ x, refs[j]? = some x ∧ u.cell? f = some x := by
  have hj : (us.map fun u => u.cell? f)[j]? = some (u.cell? f) := by
    rw [List.getElem?_map, hu, Option.map_some]
  rw [hrefs, List.getElem?_map] at hj
  obtain ⟨x, hx, hcell⟩ := Option.map_eq_some_iff.mp hj
  exact ⟨x, hx, hcell.symm⟩

/-- A closure that has the cell of a place in the topmost activation shares what is
there from then on. -/
theorem captures_of_cell (host : Host) {k : ClosureRef} {j : Nat} {u : UpvalueSource} {x : CellRef}
    (hk : k < r.machine.heap.closures.size)
    (hupvalue : (r.machine.heap.closure k).upvalues[j]? = some x)
    (hj : j < (r.machine.heap.closure k).proto.upvalues.length)
    (hcell : u.cell? r.frame = some x) (hlt : x < r.machine.heap.cells.size) :
    r.Captures host r.callers.length k j u x := by
  have htop : r.activation? r.callers.length = some r.frame := r.activation?_callers_length
  have hclosure : ∀ n, ((Status.running r).run host n).machine.heap.closure k
      = r.machine.heap.closure k := by
    intro n
    have hextends : r.machine.heap.Extends ((Status.running r).run host n).snapshot.heap :=
      r.machine.heap.extends_stable.run host (.refl _) n
    rw [← Status.heap_snapshot]
    exact hextends.closure k hk
  refine ⟨?_, ?_, ?_, ?_⟩
  · intro n
    rw [hclosure]
    exact hupvalue
  · intro n r' level' g hrun hactivates hg
    have hsame := hclosure n
    rw [hrun] at hsame
    obtain ⟨-, -, hsupplies⟩ := hactivates.supplies
    have hlength := (hsupplies g hg).1
    refine ⟨k, level', hactivates, hg, ?_, ?_⟩
    · rw [hlength]
      refine Nat.lt_of_lt_of_le ?_ (Nat.le_max_left _ _)
      exact hsame ▸ hj
    · exact hsame ▸ hupvalue
  · intro hstack r' f hlives hf
    have hsource : r.frame.upvalues[u.index.toNat]? = some x := by
      rw [UpvalueSource.cell?, hstack] at hcell
      exact hcell
    have hcontinues : r.frame.Continues (fun _ => True) r.machine.heap.cells.size f :=
      hlives.continues (fun _ _ _ _ _ _ => trivial) htop hf
    rw [hcontinues.upvalues]
    exact hsource
  · intro hstack r' f hlives hf
    have hsource : r.frame.registers[u.index.toNat]? = some x := by
      rw [UpvalueSource.cell?, hstack] at hcell
      exact hcell
    -- only other registers than this one have been closed
    have hcontinues :
        r.frame.Continues (fun q => q ≠ u.index.toNat) r.machine.heap.cells.size f := by
      refine hlives.continues ?_ htop hf
      intro c hopen q first hle hcloses heq
      have hbelow := hopen first hcloses
      omega
    refine shares_of_register ?_ (hlt.trans_le hlives.extends_heap.cells) host
    rw [hcontinues.register_eq (fun hne => hne rfl)]
    exact hsource

end Running

end LuaBytecode
