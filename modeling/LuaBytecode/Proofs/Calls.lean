import Mathlib
import LuaBytecode.Proofs.Isolation

/-! # What a call leaves alone

The run of a callee does not depend on who waits for it: the same steps are made
on top of any callers (`Status.run_over`), so a call comes to the run of the
callee by itself and then the delivery of its results. In a run by itself the
callee reaches the cells that closures have captured and cells that are new, and
nothing else. A register that no closure has captured is sealed off until the
callee is done.
-/

namespace LuaBytecode

/-! ## Runs on top of callers -/

/-- The run on top of further callers. -/
def Running.over (r : Running) (callers : List Caller) : Running :=
  { r with callers := r.callers ++ callers }

/-- The same with a run that may have ended: the callers get its results or
its fault. -/
def Status.over (callers : List Caller) : Status → Status
  | .running r => .running (r.over callers)
  | .finished m (.ok results) => m.deliver results callers
  | .finished m (.error fault) => m.fail callers.length fault

namespace Machine

theorem repeat_leave_add (m : Machine) (n k : Nat) :
    Nat.repeat leave (n + k) m = Nat.repeat leave k (Nat.repeat leave n m) := by
  induction k with
  | zero => rfl
  | succ k ih => exact congrArg leave ih

theorem fail_over (m : Machine) (active : Nat) (fault : Fault) (callers : List Caller) :
    (m.fail active fault).over callers = m.fail (active + callers.length) fault := by
  rw [fail, Status.over, fail, fail, repeat_leave_add]

theorem deliver_over (m : Machine) (results : List Value) (waiting callers : List Caller) :
    (m.deliver results waiting).over callers = m.deliver results (waiting ++ callers) := by
  induction waiting generalizing m with
  | nil => rfl
  | cons caller rest ih =>
      obtain ⟨frame, delivery⟩ := caller
      rw [List.cons_append]
      cases delivery with
      | forward =>
          rw [deliver_forward, deliver_forward]
          exact ih m.leave
      | store first wanted =>
          cases hs : Exec.storeResults first wanted results ⟨frame, m.heap⟩ with
          | ok _ s =>
              rw [deliver_store_ok rest hs, deliver_store_ok (rest ++ callers) hs]
              rfl
          | error fault s =>
              rw [deliver_store_error rest hs, deliver_store_error (rest ++ callers) hs, fail_over,
                List.length_append, Nat.add_right_comm]

theorem enter_over (m : Machine) (proto : Prototype) (upvalues : List CellRef) (args : List Value)
    (fileUpvalues : Nat) (waiting callers : List Caller) :
    (m.enter proto upvalues args fileUpvalues waiting).over callers
      = m.enter proto upvalues args fileUpvalues (waiting ++ callers) := by
  rcases Nat.lt_or_ge m.depth m.limits.depth with hroom | hfull
  · rw [enter_room hroom, enter_room hroom]
    rfl
  · rw [enter_full hfull, enter_full hfull, fail_over, List.length_append]

theorem call_over (host : Host) (m : Machine) (callee : Value) (args : List Value)
    (waiting callers : List Caller) :
    (m.call host callee args waiting).over callers
      = m.call host callee args (waiting ++ callers) := by
  cases callee with
  | closure ref =>
      rw [call_closure, call_closure]
      exact enter_over m _ _ _ _ _ _
  | host name =>
      cases hreply : (host name args m.heap.tables).outcome with
      | ok results =>
          rw [call_host_ok _ hreply, call_host_ok _ hreply]
          exact deliver_over _ _ _ _
      | error message =>
          rw [call_host_error _ hreply, call_host_error _ hreply, fail_over, List.length_append]
  | _ =>
      rw [call_of_not_callable host m rfl, call_of_not_callable host m rfl, fail_over,
        List.length_append]

end Machine

namespace Running

theorem fail_over (r : Running) (fault : Fault) (callers : List Caller) :
    (r.fail fault).over callers = (r.over callers).fail fault := by
  have hlength : (r.over callers).callers.length = r.callers.length + callers.length :=
    List.length_append
  rw [fail, fail, Machine.fail_over, hlength, Nat.add_right_comm]
  rfl

theorem follow_over (host : Host) (r : Running) (next : Next) (callers : List Caller) :
    (r.follow host next).over callers = (r.over callers).follow host next := by
  cases next with
  | proceed => rfl
  | call callee args first wanted => exact Machine.call_over host r.machine callee args _ callers
  | tailCall callee args => exact Machine.call_over host r.machine callee args _ callers
  | finish results => exact Machine.deliver_over r.machine.leave results r.callers callers

/-- A step is the same on top of any callers. -/
theorem step_over (host : Host) (r : Running) (callers : List Caller) :
    (r.step host).over callers = (r.over callers).step host := by
  cases hcode : r.frame.proto.code[r.frame.pc]? with
  | none =>
      rw [step_end hcode, step_end (r := r.over callers) hcode]
      exact follow_over host r _ callers
  | some i =>
      obtain ⟨⟨x, m, f⟩, hx⟩ : ∃ result, r.machine.attempt r.frame i = result := ⟨_, rfl⟩
      cases x with
      | ok next =>
          rw [step_of_attempt_ok hcode hx, step_of_attempt_ok (r := r.over callers) hcode hx]
          exact follow_over host ⟨m, f, r.callers⟩ next callers
      | error fault =>
          rw [step_of_attempt_error hcode hx, step_of_attempt_error (r := r.over callers) hcode hx]
          exact fail_over ⟨m, f, r.callers⟩ fault callers

end Running

namespace Status

variable {host : Host}

/-- As long as a run goes on, it makes the same steps on top of any callers. -/
theorem run_over_of_running {s : Status} {steps : Nat} {r : Running}
    (h : s.run host steps = .running r) (callers : List Caller) :
    (s.over callers).run host steps = .running (r.over callers) := by
  induction steps generalizing s with
  | zero =>
      rw [run] at h
      rw [h]
      rfl
  | succ steps ih =>
      cases s with
      | finished m outcome => cases h
      | running r₀ =>
          rw [run_running] at h
          have hrest := ih h
          rw [Running.step_over] at hrest
          exact hrest

/-- Once a run has ended, its callers get what it ended with. -/
theorem run_over (host : Host) (s : Status) (steps : Nat) (callers : List Caller) :
    ∃ n ≤ steps, (s.over callers).run host n = (s.run host steps).over callers := by
  induction steps generalizing s with
  | zero => exact ⟨0, Nat.le_refl 0, rfl⟩
  | succ steps ih =>
      cases s with
      | finished m outcome => exact ⟨0, Nat.zero_le _, rfl⟩
      | running r =>
          obtain ⟨n, hle, hrun⟩ := ih (r.step host)
          rw [Running.step_over] at hrun
          exact ⟨n + 1, Nat.succ_le_succ hle, hrun⟩

end Status

/-! ## Sealed cells -/

/-- No closure has captured the cell. -/
def Heap.Uncaptured (h : Heap) (x : CellRef) : Prop := ∀ ref, x ∉ (h.closure ref).upvalues

/-- The cell has a value, and nothing leads to it. -/
structure Snapshot.Seals (x : CellRef) (v : Value) (s : Snapshot) : Prop where
  lt : x < s.heap.cells.size
  cell : s.heap.cell x = v
  uncaptured : s.heap.Uncaptured x
  held : ∀ f ∈ s.frames, ¬ f.Holds x

/-- **A cell that nothing leads to stays out of reach.** -/
theorem Snapshot.seals_stable (x : CellRef) (v : Value) : Stable (Seals x v) := by
  intro turn closing s s' hmove hs
  cases hmove with
  | @work h h' f f' rest hchanges =>
      have hf : ¬ f.Holds x := hs.held f List.mem_cons_self
      refine ⟨?_, ?_, ?_, ?_⟩
      · rw [hchanges.cells]
        exact hs.lt
      · rw [hchanges.cell x hf]
        exact hs.cell
      · intro ref hx
        -- a new closure captures what the activation holds
        rcases Nat.lt_or_ge ref h.closures.size with hold | hnew
        · rw [hchanges.closure ref hold] at hx
          exact hs.uncaptured ref hx
        · exact hf (hchanges.captured ref hnew x hx)
      · intro g hg
        rcases List.mem_cons.mp hg with rfl | hg
        · exact fun hx => hf ((hchanges.holds_iff x).mp hx)
        · exact hs.held g (List.mem_cons_of_mem f hg)
  | @close rest first h f hclosing =>
      have hf : ¬ f.Holds x := hs.held f List.mem_cons_self
      refine ⟨?_, ?_, hs.uncaptured, ?_⟩
      · rw [Scope.renew_size]
        exact Nat.lt_add_right _ hs.lt
      · exact (Heap.cell_newCells_of_lt hs.lt _).trans hs.cell
      · intro g hg
        rcases List.mem_cons.mp hg with rfl | hg
        · rintro (hregister | hupvalue)
          · rcases Scope.mem_renew_registers hregister with hold | hnew
            · exact hf (Or.inl hold)
            · exact absurd hs.lt (Nat.not_lt.mpr hnew)
          · exact hf (Or.inr hupvalue)
        · exact hs.held g (List.mem_cons_of_mem f hg)
  | enter h frames ref args =>
      have hextends := h.activate_extends ref args
      refine ⟨hs.lt.trans_le hextends.cells, (Scope.enter_cell_of_lt hs.lt).trans hs.cell, ?_, ?_⟩
      · intro ref'
        rw [Heap.closure_activate]
        exact hs.uncaptured ref'
      · intro g hg
        rcases List.mem_cons.mp hg with rfl | hg
        · intro hx
          rcases Scope.holds_enter hx with hgiven | hnew
          · exact hs.uncaptured ref hgiven
          · exact absurd hs.lt (Nat.not_lt.mpr hnew)
        · exact hs.held g hg
  | leave h f rest =>
      exact ⟨hs.lt, hs.cell, hs.uncaptured, fun g hg => hs.held g (List.mem_cons_of_mem f hg)⟩
  | host h frames tables => exact ⟨hs.lt, hs.cell, hs.uncaptured, hs.held⟩

/-! ## Results -/

theorem Heap.table_of_size_le {h : Heap} {ref : TableRef} (hle : h.tables.size ≤ ref) :
    h.table ref = .empty := by
  simp [table, Array.getD_eq_getD_getElem?, Array.getElem?_eq_none hle]

theorem Heap.table_newTable_empty {h : Heap} {ref : TableRef} (hle : h.tables.size ≤ ref) :
    (h.newTable .empty).2.table ref = .empty := by
  rcases hle.eq_or_lt with rfl | hlt
  · simp [table, newTable, Array.getD_eq_getD_getElem?]
  · exact table_of_size_le (by simpa [newTable] using hlt)

/-- The results of a call are stored: the registers from `first` on have the
results, and new tables where there are too few. -/
structure Scope.Stores (first wanted : Nat) (results : List Value) (s s' : Scope) : Prop where
  frame : s'.frame = s.frame
  register : ∀ j < wanted, s.frame.register? s'.heap (first + j)
    = some (results[j]?.getD (.table (s.heap.tables.size + (j - results.length))))
  cell : ∀ x, (∀ j < wanted, s.frame.registers[first + j]? ≠ some x) →
    s'.heap.cell x = s.heap.cell x
  tables : s'.heap.tables.size = s.heap.tables.size + (wanted - results.length)
  table : ∀ ref < s.heap.tables.size, s'.heap.table ref = s.heap.table ref
  empty : ∀ ref, s.heap.tables.size ≤ ref → s'.heap.table ref = .empty

namespace Scope.Stores

variable {first wanted : Nat} {results : List Value} {s s' : Scope}

theorem zero (first : Nat) (results : List Value) (s : Scope) : s.Stores first 0 results s where
  frame := rfl
  register _ hj := absurd hj (Nat.not_lt_zero _)
  cell _ _ := rfl
  tables := by rw [Nat.zero_sub, Nat.add_zero]
  table _ _ := rfl
  empty _ hle := Heap.table_of_size_le hle

/-- One result into a register, then the others. The heap `h` is that of `s`
with a new table if there is no result. -/
theorem succ {h : Heap} {x : CellRef} (hnodup : s.frame.registers.Nodup)
    (hx : s.frame.registers[first]? = some x) (hlt : x < s.heap.cells.size)
    (hcells : h.cells = s.heap.cells)
    (htables : h.tables.size = s.heap.tables.size + (1 - results.length))
    (htable : ∀ ref < s.heap.tables.size, h.table ref = s.heap.table ref)
    (hempty : ∀ ref, s.heap.tables.size ≤ ref → h.table ref = .empty)
    (hrest : Stores (first + 1) wanted results.tail
      ⟨s.frame, h.setCell x (results[0]?.getD (.table s.heap.tables.size))⟩ s') :
    s.Stores first (wanted + 1) results s' where
  frame := hrest.frame
  register := by
    intro j hj
    cases j with
    | zero =>
        -- the other results go to other cells
        have hother : ∀ j < wanted, s.frame.registers[first + 1 + j]? ≠ some x := by
          intro j _ hjx
          have hfirst : first < s.frame.registers.length := (List.getElem?_eq_some_iff.mp hx).1
          have heq := (List.getElem?_inj hfirst hnodup).mp (hx.trans hjx.symm)
          omega
        have hlt' : x < h.cells.size := by
          rw [hcells]
          exact hlt
        rw [Nat.add_zero, Frame.register?, hx, Option.map_some, hrest.cell x hother,
          Heap.cell_setCell_self hlt', Nat.zero_sub, Nat.add_zero]
    | succ j =>
        have hvalue := hrest.register j (Nat.lt_of_succ_lt_succ hj)
        have hindex : first + 1 + j = first + (j + 1) := by omega
        have hplace : h.tables.size + (j - results.tail.length)
            = s.heap.tables.size + (j + 1 - results.length) := by
          rw [htables, List.length_tail]
          omega
        rw [hindex, List.getElem?_tail] at hvalue
        rw [← hplace]
        exact hvalue
  cell := by
    intro y hy
    have hne : y ≠ x := by
      rintro rfl
      exact hy 0 (Nat.succ_pos _) hx
    have hsame : h.cell y = s.heap.cell y := by rw [Heap.cell, Heap.cell, hcells]
    rw [hrest.cell y ?_, Heap.cell_setCell_of_ne h hne, hsame]
    intro j hj
    have hnot := hy (j + 1) (Nat.succ_lt_succ hj)
    rwa [Nat.add_right_comm, Nat.add_assoc]
  tables := by
    have htail : s'.heap.tables.size = h.tables.size + (wanted - results.tail.length) :=
      hrest.tables
    rw [htail, htables, List.length_tail]
    omega
  table := by
    intro ref href
    have hlater : ref < h.tables.size := by
      rw [htables]
      exact Nat.lt_add_right _ href
    exact (hrest.table ref hlater).trans (htable ref href)
  empty := by
    intro ref hle
    rcases Nat.lt_or_ge ref h.tables.size with hmade | hlater
    · exact (hrest.table ref hmade).trans (hempty ref hle)
    · exact hrest.empty ref hlater

end Scope.Stores

/-- Where there are registers enough, the results are stored. -/
theorem Exec.storeResults_ok {first wanted : Nat} (results : List Value) {s : Scope}
    (hnodup : s.frame.registers.Nodup) (hlt : ∀ x ∈ s.frame.registers, x < s.heap.cells.size)
    (hroom : first + wanted ≤ s.frame.registers.length) :
    ∃ s', storeResults first wanted results s = .ok () s' ∧ s.Stores first wanted results s' := by
  induction wanted generalizing first results s with
  | zero => exact ⟨s, rfl, .zero first results s⟩
  | succ wanted ih =>
      obtain ⟨x, hx⟩ : ∃ x, s.frame.registers[first]? = some x :=
        ⟨_, List.getElem?_eq_getElem (by omega)⟩
      have hxlt : x < s.heap.cells.size := hlt x (List.mem_of_getElem? hx)
      have hroom' : first + 1 + wanted ≤ s.frame.registers.length := by omega
      cases results with
      | nil =>
          let h := (s.heap.newTable .empty).2
          have hlt' : ∀ y ∈ s.frame.registers,
              y < (h.setCell x (.table s.heap.tables.size)).cells.size := by
            intro y hy
            rw [Heap.size_setCell]
            exact hlt y hy
          obtain ⟨s', hs', hrest⟩ :=
            ih [] (s := ⟨s.frame, h.setCell x (.table s.heap.tables.size)⟩) hnodup hlt' hroom'
          refine ⟨s', ?_, .succ (h := h) hnodup hx hxlt rfl ?_ ?_ ?_ hrest⟩
          · have hnew : newTable .empty s = .ok (.table s.heap.tables.size) ⟨s.frame, h⟩ := rfl
            rw [storeResults, bind_ok hnew, bind_ok (setReg_ok (s := ⟨s.frame, h⟩) hx _)]
            exact hs'
          · exact Array.size_push _
          · exact fun ref href => Heap.table_newTable_of_lt href _
          · exact fun ref hle => Heap.table_newTable_empty hle
      | cons v rest =>
          have hlt' : ∀ y ∈ s.frame.registers, y < (s.heap.setCell x v).cells.size := by
            intro y hy
            rw [Heap.size_setCell]
            exact hlt y hy
          obtain ⟨s', hs', hrest⟩ :=
            ih rest (s := ⟨s.frame, s.heap.setCell x v⟩) hnodup hlt' hroom'
          refine ⟨s', ?_, .succ (h := s.heap) hnodup hx hxlt rfl ?_ (fun _ _ => rfl)
            (fun _ => Heap.table_of_size_le) hrest⟩
          · rw [storeResults, bind_ok (setReg_ok hx v)]
            exact hs'
          · rw [List.length_cons, Nat.sub_eq_zero_of_le (Nat.le_add_left 1 _), Nat.add_zero]

/-! ## The instruction -/

/-- A list of registers is read whole, or one of them is not there. -/
theorem Exec.regs_cases (first count : Nat) (s : Scope) :
    (∃ values, regs first count s = .ok values s ∧
      (List.range' first count).map (s.frame.register? s.heap) = values.map some) ∨
    s.frame.registers.length < first + count ∧ ∃ fault, regs first count s = .error fault s := by
  induction count generalizing first with
  | zero => exact Or.inl ⟨[], rfl, rfl⟩
  | succ count ih =>
      cases hv : s.frame.register? s.heap first with
      | none =>
          right
          have hend : s.frame.registers.length ≤ first :=
            List.getElem?_eq_none_iff.mp (Option.map_eq_none_iff.mp hv)
          rw [regs, bind_error (reg_none hv)]
          exact ⟨by omega, _, rfl⟩
      | some v =>
          rw [regs, bind_ok (reg_some hv)]
          rcases ih (first + 1) with ⟨rest, hrest, hvalues⟩ | ⟨hshort, fault, hfault⟩
          · left
            rw [bind_ok hrest]
            refine ⟨v :: rest, rfl, ?_⟩
            rw [List.range'_succ, List.map_cons, List.map_cons, hv, hvalues]
          · right
            rw [bind_error hfault]
            exact ⟨by omega, fault, rfl⟩

theorem Exec.call_callable {a : Nat} {s : Scope} {callee : Value}
    (hcallee : s.frame.register? s.heap a = some callee) (hcallable : callee.isCallable)
    (b c : Nat) :
    Exec.call a b c s
      = (regs (a + 1) (b - 1) >>= fun args => pure (Next.call callee args a c)) s := by
  rw [Exec.call, bind_ok (reg_some hcallee), if_pos hcallable]

/-- A call of what can be called hands over to the callee, unless the budget is
used up or an argument is not there. -/
theorem Machine.attempt_call {m : Machine} {f : Frame} {i : Instruction} {callee : Value}
    (hop : i.opcode? = some .call) (hcallee : f.register? m.heap i.a.toNat = some callee)
    (hcallable : callee.isCallable) :
    (∃ fault m' f', m.attempt f i = (.error fault, m', f') ∧ m'.heap = m.heap ∧
      (m.tick.overBudget?.isSome ∨ f.registers.length < i.a.toNat + 1 + (i.b.toNat - 1))) ∨
    ∃ args,
      (List.range' (i.a.toNat + 1) (i.b.toNat - 1)).map (f.register? m.heap) = args.map some ∧
      m.attempt f i
        = (.ok (.call callee args i.a.toNat i.c.toNat), m.tick, { f with pc := f.pc + 1 }) := by
  unfold attempt
  split
  · rename_i limit hlimit
    exact Or.inl ⟨_, _, _, rfl, rfl, Or.inl (hlimit ▸ rfl)⟩
  rw [hop]
  let s : Scope := ⟨{ f with pc := f.pc + 1 }, m.tick.heap⟩
  have hcall : i.execute .call s
      = (Exec.regs (i.a.toNat + 1) (i.b.toNat - 1) >>= fun args =>
          pure (Next.call callee args i.a.toNat i.c.toNat)) s :=
    Exec.call_callable (s := s) hcallee hcallable _ _
  rcases Exec.regs_cases (i.a.toNat + 1) (i.b.toNat - 1) s with
    ⟨args, hargs, hvalues⟩ | ⟨hshort, fault, hfault⟩
  · rw [Exec.bind_ok hargs] at hcall
    exact Or.inr ⟨args, hvalues, perform_ok hcall⟩
  · rw [Exec.bind_error hfault] at hcall
    exact Or.inl ⟨fault, _, _, perform_error hcall, rfl, Or.inr hshort⟩

/-! ## The run of a callee -/

namespace Machine

/-- **No callee reaches a cell that is not captured.** -/
theorem callValue_cell {m : Machine} {x : CellRef} (hlt : x < m.heap.cells.size)
    (hx : m.heap.Uncaptured x) (host : Host) (callee : Value) (args : List Value) (steps : Nat) :
    ((m.callValue host callee args).run host steps).machine.heap.cell x = m.heap.cell x := by
  have hbefore : Snapshot.Seals x (m.heap.cell x) ⟨m.heap, []⟩ := ⟨hlt, rfl, hx, nofun⟩
  have hafter := stable_callValue (Snapshot.seals_stable x _) host hbefore callee args steps
  rw [← Status.heap_snapshot]
  exact hafter.cell

theorem callValue_extends (host : Host) (m : Machine) (callee : Value) (args : List Value)
    (steps : Nat) :
    m.heap.Extends ((m.callValue host callee args).run host steps).machine.heap := by
  rw [← Status.heap_snapshot]
  exact stable_callValue m.heap.extends_stable host (.refl m.heap) callee args steps

end Machine

namespace Running

/-- The activation of `r` goes on with the results of its call, which end up in
the registers from `first` on; `h` is the heap that the callee has left. -/
structure Resumes (first wanted : Nat) (results : List Value) (h : Heap) (r r' : Running) :
    Prop where
  frame : r'.frame = { r.frame with pc := r.frame.pc + 1 }
  callers : r'.callers = r.callers
  result : ∀ j < wanted, ∀ v, results[j]? = some v →
    r'.frame.register? r'.machine.heap (first + j) = some v
  /-- Where there is no result there is a new table, and one of its own each. -/
  missing : ∀ j < wanted, results.length ≤ j →
    r'.frame.register? r'.machine.heap (first + j)
      = some (.table (h.tables.size + (j - results.length))) ∧
    h.tables.size + (j - results.length) < r'.machine.heap.tables.size ∧
    r'.machine.heap.table (h.tables.size + (j - results.length)) = .empty
  tables : ∀ ref < h.tables.size, r'.machine.heap.table ref = h.table ref
  register : ∀ q, q < first ∨ first + wanted ≤ q → ∀ x, r.frame.registers[q]? = some x →
    r.machine.heap.Uncaptured x →
    r'.frame.register? r'.machine.heap q = r.frame.register? r.machine.heap q
  below : ∀ f ∈ r.callers.map Caller.frame, ∀ x ∈ f.registers, r.machine.heap.Uncaptured x →
    r'.machine.heap.cell x = r.machine.heap.cell x

/-- The next step of `r` is a call for the registers from `first` on. The run of
the callee by itself is `callee`. -/
structure CallsOut (host : Host) (first wanted : Nat) (callee : Status) (r : Running) :
    Prop where
  /-- The caller waits as long as the callee runs. -/
  waits : ∀ steps c, callee.run host steps = .running c →
    (r.step host).run host steps = .running
      (c.over (⟨{ r.frame with pc := r.frame.pc + 1 }, .store first wanted⟩ :: r.callers))
  /-- Up to its end the callee leaves alone what no closure has captured. -/
  cell : ∀ steps, ∀ f ∈ r.snapshot.frames, ∀ x ∈ f.registers, r.machine.heap.Uncaptured x →
    (callee.run host steps).machine.heap.cell x = r.machine.heap.cell x
  faults : ∀ m fault, callee.Ends host m (.error fault) →
    ∃ m', (r.step host).Ends host m' (.error fault) ∧ m'.heap = m.heap
  returns : ∀ m results, callee.Ends host m (.ok results) →
    first + wanted ≤ r.frame.registers.length →
    ∃ steps r', (r.step host).run host steps = .running r' ∧
      r.Resumes first wanted results m.heap r'

variable {host : Host} {r : Running}

/-- The results are stored where no uncaptured register outside of their range
is. -/
theorem resumes_of_stores (hr : r.snapshot.Isolated) {first wanted : Nat} {results : List Value}
    {m : Machine} {s : Scope}
    (hkept : ∀ f ∈ r.snapshot.frames, ∀ x ∈ f.registers, r.machine.heap.Uncaptured x →
      m.heap.cell x = r.machine.heap.cell x)
    (hs : Scope.Stores first wanted results ⟨{ r.frame with pc := r.frame.pc + 1 }, m.heap⟩ s) :
    r.Resumes first wanted results m.heap ⟨m.withHeap s.heap, s.frame, r.callers⟩ := by
  have htop : r.frame ∈ r.snapshot.frames := List.mem_cons_self
  have hframe : s.frame = { r.frame with pc := r.frame.pc + 1 } := hs.frame
  refine ⟨hframe, rfl, ?_, ?_, hs.table, ?_, ?_⟩
  · intro j hj v hv
    have hvalue := hs.register j hj
    rw [hv, Option.getD_some] at hvalue
    rw [hframe]
    exact hvalue
  · intro j hj hle
    have hvalue := hs.register j hj
    rw [List.getElem?_eq_none hle, Option.getD_none] at hvalue
    have hsize : s.heap.tables.size = m.heap.tables.size + (wanted - results.length) := hs.tables
    refine ⟨?_, ?_, hs.empty _ (Nat.le_add_right _ _)⟩
    · rw [hframe]
      exact hvalue
    · show _ < s.heap.tables.size
      omega
  · intro q hq x hx huncaptured
    have houtside : ∀ j < wanted, r.frame.registers[first + j]? ≠ some x := by
      intro j hj hjx
      have hlt : q < r.frame.registers.length := (List.getElem?_eq_some_iff.mp hx).1
      have heq := (List.getElem?_inj hlt (hr.frames _ htop).nodup).mp (hx.trans hjx.symm)
      omega
    have hcell : s.heap.cell x = r.machine.heap.cell x :=
      (hs.cell x houtside).trans (hkept _ htop x (List.mem_of_getElem? hx) huncaptured)
    rw [hframe, Frame.register?, Frame.register?]
    show r.frame.registers[q]?.map s.heap.cell = _
    rw [hx, Option.map_some, Option.map_some, hcell]
  · intro f hf x hx huncaptured
    have hapart := (List.pairwise_cons.mp hr.apart).1 f hf
    have houtside : ∀ j < wanted, r.frame.registers[first + j]? ≠ some x :=
      fun j _ hjx => hapart (List.mem_of_getElem? hjx) hx
    exact (hs.cell x houtside).trans (hkept f (List.mem_cons_of_mem _ hf) x hx huncaptured)

/-- **The frame rule of calls.** Take a call of what can be called, in any state
that a run can come to. Unless the budget is used up or an argument is not there,
it comes to the run of the callee by itself: all that time the registers of the
caller and of those below it keep their values, save for the captured ones, and
if the callee returns, the caller goes on with the results. -/
theorem call_keeps_uncaptured (hr : r.Reached host) {i : Instruction}
    (hcode : r.frame.proto.code[r.frame.pc]? = some i) (hop : i.opcode? = some .call)
    {callee : Value} (hcallee : r.frame.register? r.machine.heap i.a.toNat = some callee)
    (hcallable : callee.isCallable) :
    (∃ m fault, r.step host = .finished m (.error fault) ∧ m.heap = r.machine.heap ∧
      (r.machine.tick.overBudget?.isSome ∨
        r.frame.registers.length < i.a.toNat + 1 + (i.b.toNat - 1))) ∨
    ∃ args,
      (List.range' (i.a.toNat + 1) (i.b.toNat - 1)).map (r.frame.register? r.machine.heap)
        = args.map some ∧
      r.CallsOut host i.a.toNat i.c.toNat (r.machine.tick.callValue host callee args) := by
  rcases Machine.attempt_call hop hcallee hcallable with
    ⟨fault, m, f, hattempt, hheap, hcause⟩ | ⟨args, hargs, hattempt⟩
  · left
    rw [step_of_attempt_error hcode hattempt]
    exact ⟨_, fault, rfl, (Machine.heap_repeat_leave _ _).trans hheap, hcause⟩
  right
  have hisolated := hr.isolated
  have hstep : r.step host = (r.machine.tick.callValue host callee args).over
      (⟨{ r.frame with pc := r.frame.pc + 1 }, .store i.a.toNat i.c.toNat⟩ :: r.callers) := by
    rw [step_of_attempt_ok hcode hattempt]
    exact (Machine.call_over host _ callee args [] _).symm
  have hcell : ∀ steps, ∀ f ∈ r.snapshot.frames, ∀ x ∈ f.registers,
      r.machine.heap.Uncaptured x →
      ((r.machine.tick.callValue host callee args).run host steps).machine.heap.cell x
        = r.machine.heap.cell x := by
    intro steps f hf x hx huncaptured
    have hlt : x < r.machine.heap.cells.size := (hisolated.frames f hf).lt x (Or.inl hx)
    exact Machine.callValue_cell (m := r.machine.tick) hlt huncaptured host callee args steps
  refine ⟨args, hargs, ?_, hcell, ?_, ?_⟩
  · intro steps c hc
    rw [hstep]
    exact Status.run_over_of_running hc _
  · rintro m fault ⟨steps, hends⟩
    obtain ⟨n, -, hrun⟩ := Status.run_over host _ steps
      (⟨{ r.frame with pc := r.frame.pc + 1 }, .store i.a.toNat i.c.toNat⟩ :: r.callers)
    rw [← hstep, hends] at hrun
    exact ⟨_, ⟨n, hrun⟩, Machine.heap_repeat_leave _ _⟩
  · rintro m results ⟨steps, hends⟩ hroom
    obtain ⟨n, -, hrun⟩ := Status.run_over host _ steps
      (⟨{ r.frame with pc := r.frame.pc + 1 }, .store i.a.toNat i.c.toNat⟩ :: r.callers)
    have hextends := Machine.callValue_extends host r.machine.tick callee args steps
    have hkept := hcell steps
    rw [hends] at hextends hkept hrun
    have htop := hisolated.frames r.frame List.mem_cons_self
    obtain ⟨s, hs, hstores⟩ := Exec.storeResults_ok results
      (s := ⟨{ r.frame with pc := r.frame.pc + 1 }, m.heap⟩) htop.nodup
      (fun x hx => (htop.lt x (Or.inl hx)).trans_le hextends.cells) hroom
    rw [← hstep] at hrun
    exact ⟨n, _, hrun.trans (Machine.deliver_store_ok r.callers hs),
      resumes_of_stores hisolated hkept hstores⟩

/-- `Prototype.counter` calls its closure from R[2] for two results: the one there
is goes to R[2], a new table to R[3], and R[1] still has the closure. -/
theorem call_keeps_uncaptured_counter :
    ∃ r n r' ref, Prototype.counterAfter 3 = .running r ∧
      r.frame.register? r.machine.heap 2 = some (.closure 0) ∧
      (r.step (Host.library Value.text)).run (Host.library Value.text) n = .running r' ∧
      r'.frame.register? r'.machine.heap 1 = some (.closure 0) ∧
      r'.frame.register? r'.machine.heap 2 = some (.int 6) ∧
      r'.frame.register? r'.machine.heap 3 = some (.table ref) ∧
      r'.machine.heap.table ref = .empty := by
  obtain ⟨r, hrun, hcode, hregisters, hbudget, hclosures, hupvalues, hkept, hcallee, houtcome⟩ :
      ∃ r, Prototype.counterAfter 3 = .running r ∧
        r.frame.proto.code[r.frame.pc]? = some (.ofABC .call 2 1 2 false) ∧
        r.frame.registers = [0, 1, 2, 3] ∧ r.machine.tick.overBudget? = none ∧
        r.machine.heap.closures.size = 1 ∧ (r.machine.heap.closure 0).upvalues = [0] ∧
        r.frame.register? r.machine.heap 1 = some (.closure 0) ∧
        r.frame.register? r.machine.heap 2 = some (.closure 0) ∧
        ((r.machine.tick.callValue (Host.library Value.text) (.closure 0) []).run
          (Host.library Value.text) 4).outcome? = some (.ok [.int 6]) :=
    Status.exists_running (by decide +kernel)
  have hreached : r.Reached (Host.library Value.text) :=
    ⟨{}, _, 3, Heap.sound_empty, .prototype .counter [] [] 0 nofun, hrun⟩
  have huncaptured : r.machine.heap.Uncaptured 1 := by
    intro ref hx
    rcases Nat.eq_zero_or_pos ref with rfl | hpos
    · rw [hupvalues] at hx
      exact absurd hx (by decide)
    · exact Scope.Changes.not_captured (hclosures.trans_le hpos) 1 hx
  rcases call_keeps_uncaptured hreached hcode (by decide) hcallee rfl with
    ⟨m, fault, -, -, hover | hshort⟩ | ⟨args, hargs, hcalls⟩
  · rw [hbudget] at hover
    cases hover
  · rw [hregisters] at hshort
    exact absurd hshort (by decide)
  · have hnone : args = [] := List.map_eq_nil_iff.mp hargs.symm
    subst hnone
    obtain ⟨n, r', hrun', hresumes⟩ := hcalls.returns _ _
      (Status.ends_of_outcome? 4 houtcome) (by rw [hregisters]; decide)
    obtain ⟨htable, -, hempty⟩ := hresumes.missing 1 (by decide) (by decide)
    have hresult := hresumes.result 0 (by decide) _ rfl
    refine ⟨r, n, r', _, hrun, hcallee, hrun', ?_, hresult, htable, hempty⟩
    rw [hresumes.register 1 (by decide) 1 (by rw [hregisters]; rfl) huncaptured]
    exact hkept

end Running

end LuaBytecode
