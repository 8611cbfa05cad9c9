import Mathlib
import LuaBytecode.Host.Library
import LuaBytecode.Proofs.Activations
import LuaBytecode.Proofs.RunFaults

/-! # Counted loops

A counted loop is a body between a `ForPrep` and a `ForLoop` on the same register. The first looks
at the counter and goes around the body unless it is positive; the second counts down and goes back
to the body while the counter is still positive. Nothing is known of the body but that it leads to
the `ForLoop` and leaves the counter as it was, and it may call, capture and jump as it likes on the
way. Then a positive counter is the number of times that the body is carried out.
-/

namespace LuaBytecode

/-- At `start` there is a loop which counts in register `a`, with a body of `length`
instructions. -/
structure Prototype.HasLoop (p : Prototype) (start length a : Nat) : Prop where
  prep : ∃ i, p.code[start]? = some i ∧ i.opcode? = some .forPrep ∧ i.a.toNat = a ∧ i.bx = length
  loop : ∃ i, p.code[start + length + 1]? = some i ∧ i.opcode? = some .forLoop ∧ i.a.toNat = a ∧
    i.bx = length + 1

/-! ## Counters -/

/-- A positive counter does not wrap around. -/
theorem toInt_sub_one {n : Int64} (h : 0 < n.toInt) : (n - 1).toInt = n.toInt - 1 := by
  have hlt := n.toInt_lt
  rw [Int64.toInt_sub, Int64.toInt_one]
  exact Int.bmod_eq_of_le (by omega) (by omega)

namespace Heap

/-- A cell with a value other than nil is there. -/
theorem lt_of_cell_ne_nil {h : Heap} {x : CellRef} (hne : h.cell x ≠ .nil) : x < h.cells.size := by
  by_contra hge
  apply hne
  rw [cell, Array.getD_eq_getD_getElem?, Array.getElem?_eq_none (Nat.not_lt.mp hge)]
  rfl

end Heap

namespace Running

variable {host : Host} {r r' q : Running} {level : Nat} {allowed : Running → Prop}

/-! ## Steps without a limit -/

theorem limits_step (host : Host) (r : Running) :
    (r.step host).machine.limits = r.machine.limits := by
  cases hcode : r.frame.proto.code[r.frame.pc]? with
  | none =>
      rw [step_end hcode]
      exact (Machine.deliver_uncounted _ [] r.callers).limits
  | some i =>
      cases hbudget : r.machine.tick.overBudget? with
      | some limit =>
          rw [step_overBudget hcode hbudget]
          exact Machine.limits_fail _ _ _
      | none =>
          rw [step_dispatch hcode hbudget]
          exact (dispatch_uncounted host { r with machine := r.machine.tick } i).limits

/-- Where there is no limit, an instruction that succeeds in its own activation is a step. -/
theorem step_of_execute {i : Instruction} {op : Opcode} {s : Scope}
    (hlimit : r.machine.limits.instructions = none)
    (hcode : r.frame.proto.code[r.frame.pc]? = some i) (hop : i.opcode? = some op)
    (h : i.execute op r.scope = .ok .proceed s) :
    r.step host = .running ⟨r.machine.tick.withHeap s.heap, s.frame, r.callers⟩ := by
  have hbudget : r.machine.tick.overBudget? = none := by
    have htick : r.machine.tick.limits.instructions = none := hlimit
    rw [Machine.overBudget?, htick, Option.filter_none]
  have hdispatches : r.Dispatches i := ⟨hcode, hbudget⟩
  exact hdispatches.step_ok hop h

/-! ## The two instructions of a loop -/

variable {start length a : Nat}

/-- `ForPrep` on a positive counter leads into the body. -/
theorem step_forPrep_enter (host : Host) {v : Value} (hlimit : r.machine.limits.instructions = none)
    (hloop : r.frame.proto.HasLoop start length a) (hpc : r.frame.pc = start)
    (hv : r.register? a = some v) (hpositive : v.number?.any Number.isPositive = true) :
    r.step host = .running ⟨r.machine.tick, { r.frame with pc := start + 1 }, r.callers⟩ := by
  obtain ⟨i, hcode, hop, rfl, rfl⟩ := hloop.prep
  subst hpc
  have hexecute : i.execute .forPrep r.scope = .ok .proceed r.scope := by
    show Exec.forPrep _ _ r.scope = _
    rw [Exec.forPrep_eq hv, if_pos hpositive]
    rfl
  exact step_of_execute hlimit hcode hop hexecute

/-- `ForPrep` on anything else goes around the body. -/
theorem step_forPrep_exit (host : Host) {v : Value} (hlimit : r.machine.limits.instructions = none)
    (hloop : r.frame.proto.HasLoop start length a) (hpc : r.frame.pc = start)
    (hv : r.register? a = some v) (hpositive : v.number?.any Number.isPositive = false) :
    r.step host
      = .running ⟨r.machine.tick, { r.frame with pc := start + length + 2 }, r.callers⟩ := by
  obtain ⟨i, hcode, hop, rfl, rfl⟩ := hloop.prep
  subst hpc
  have hjump : Exec.jump (i.bx + 1) r.scope
      = .ok () ⟨{ r.frame with pc := r.frame.pc + i.bx + 2 }, r.machine.heap⟩ := by
    apply Exec.jump_ok
    show ((r.frame.pc + 1 : Nat) : Int) + (i.bx + 1) = _
    omega
  have hexecute : i.execute .forPrep r.scope
      = .ok .proceed ⟨{ r.frame with pc := r.frame.pc + i.bx + 2 }, r.machine.heap⟩ := by
    show Exec.forPrep _ _ r.scope = _
    rw [Exec.forPrep_eq hv, if_neg (by rw [hpositive]; decide)]
    exact Exec.bind_ok hjump
  exact step_of_execute hlimit hcode hop hexecute

/-- `ForLoop` counts down. It leads back into the body, or out of the loop when the counter has come
to zero. -/
theorem step_forLoop (host : Host) {n : Int64} (hlimit : r.machine.limits.instructions = none)
    (hloop : r.frame.proto.HasLoop start length a) (hpc : r.frame.pc = start + length + 1)
    (hn : r.register? a = some (.int n)) :
    ∃ r', r.step host = .running r' ∧ r'.callers = r.callers ∧
      r'.frame.pc = (if 0 < n - 1 then start + 1 else start + length + 2) ∧
      r'.register? a = some (.int (n - 1)) := by
  obtain ⟨i, hcode, hop, rfl, hbx⟩ := hloop.loop
  rw [← hpc] at hcode
  obtain ⟨x, hx, hcell⟩ := Option.map_eq_some_iff.mp hn
  have hlt : x < r.machine.heap.cells.size := Heap.lt_of_cell_ne_nil (by rw [hcell]; exact nofun)
  let h := r.machine.heap.setCell x (.int (n - 1))
  have hregister (pc : Nat) :
      Frame.register? { r.frame with pc } h i.a.toNat = some (.int (n - 1)) := by
    show r.frame.registers[i.a.toNat]?.map h.cell = _
    rw [hx, Option.map_some, Heap.cell_setCell_self hlt]
  have hexecute := Exec.forLoop_eq (s := r.scope) hx i.bx
  have hcell' : r.scope.heap.cell x = .int n := hcell
  rw [hcell'] at hexecute
  by_cases hpositive : 0 < n - 1
  · have hjump : Exec.jump (-i.bx) ⟨r.scope.frame, h⟩
        = .ok () ⟨{ r.frame with pc := start + 1 }, h⟩ := by
      apply Exec.jump_ok
      show ((r.frame.pc + 1 : Nat) : Int) + -i.bx = _
      omega
    have hpositive' : (Value.int n).numberOrZero.pred.isPositive = true :=
      decide_eq_true hpositive
    rw [if_pos hpositive'] at hexecute
    have hback : i.execute .forLoop r.scope = .ok .proceed ⟨{ r.frame with pc := start + 1 }, h⟩ :=
      hexecute.trans (Exec.bind_ok hjump)
    refine ⟨_, step_of_execute hlimit hcode hop hback, rfl, ?_, hregister _⟩
    rw [if_pos hpositive]
  · have hpositive' : ¬ (Value.int n).numberOrZero.pred.isPositive = true :=
      mt of_decide_eq_true hpositive
    rw [if_neg hpositive'] at hexecute
    have hout : i.execute .forLoop r.scope = .ok .proceed ⟨r.scope.frame, h⟩ := hexecute
    refine ⟨_, step_of_execute hlimit hcode hop hout, rfl, ?_, hregister _⟩
    rw [if_neg hpositive]
    show r.frame.pc + 1 = _
    rw [hpc]

namespace Lives

theorem limits (h : r.Lives host level allowed r') : r'.machine.limits = r.machine.limits := by
  induction h with
  | refl _ => rfl
  | @step mid last _ _ hstep _ ih =>
      have hlast := limits_step host mid
      rw [hstep] at hlast
      exact hlast.trans ih

/-- Whenever the activation is topmost again, it runs the same code. -/
theorem proto (h : r.Lives host r.callers.length allowed r')
    (hlength : r'.callers.length = r.callers.length) : r'.frame.proto = r.frame.proto := by
  have htop := r'.activation?_callers_length
  rw [hlength] at htop
  have hcontinues : r.frame.Continues (fun _ => True) r.machine.heap.cells.size r'.frame :=
    h.continues (fun _ _ _ _ _ _ => trivial) r.activation?_callers_length htop
  exact hcontinues.proto

end Lives

/-! ## Rounds of a loop -/

/-- Control is at `pc`, in the activation at `level`. -/
def At (level pc : Nat) (r : Running) : Prop := r.callers.length = level ∧ r.frame.pc = pc

instance (level pc : Nat) (r : Running) : Decidable (r.At level pc) :=
  inferInstanceAs (Decidable (_ ∧ _))

/-- The body of a loop is carried out once: the run gets from `r` to the place `last`, where it has
not been on the way, and its activation lives all the time. -/
structure CarriesOut (host : Host) (last : Nat) (r r' : Running) : Prop where
  lives : r.Lives host r.callers.length (fun q => ¬ q.At r.callers.length last) r'
  arrives : r'.At r.callers.length last

/-- In the activation at the bottom of the stack, a body is carried out as soon as control has come
to its end. -/
theorem carriesOut_of_run {last steps : Nat} (hbottom : r.callers.length = 0)
    (hrun : (Status.running r).run host steps = .running r') (hlast : r'.At 0 last)
    (hbefore : ∀ k < steps, ∀ q, (Status.running r).run host k = .running q → ¬ q.At 0 last) :
    r.CarriesOut host last r' := by
  have hlives := Lives.of_run hrun hbefore
  rw [← hbottom] at hlast hlives
  exact ⟨hlives, hlast⟩

/-- From `r` to `r'` the body between `first` and `last` is carried out a number of times, each time
followed by the instruction at `last`. -/
inductive Rounds (host : Host) (first last : Nat) : Nat → Running → Running → Prop
  | none (r : Running) : Rounds host first last 0 r r
  | round {n : Nat} {r r₁ r₂ r' : Running} : r.frame.pc = first → r.CarriesOut host last r₁ →
      r₁.step host = .running r₂ → Rounds host first last n r₂ r' →
      Rounds host first last (n + 1) r r'

/-- A body that is carried out ends in one state only. -/
theorem CarriesOut.unique {last : Nat} (h : r.CarriesOut host last r')
    (h' : r.CarriesOut host last q) : q = r' := by
  obtain ⟨n, hrun, hbefore⟩ := h.lives.run
  obtain ⟨n', hrun', hbefore'⟩ := h'.lives.run
  rcases Nat.lt_trichotomy n n' with hlt | rfl | hgt
  · obtain ⟨c, hc, hnot⟩ := hbefore' n hlt
    rw [hrun] at hc
    cases hc
    exact absurd h.arrives hnot
  · rw [hrun] at hrun'
    cases hrun'
    rfl
  · obtain ⟨c, hc, hnot⟩ := hbefore n' hgt
    rw [hrun'] at hc
    cases hc
    exact absurd h'.arrives hnot

/-- Outside of the body it is decided how many rounds there were. -/
theorem Rounds.unique {first last n k : Nat} (h : Rounds host first last n r r')
    (hr' : r'.frame.pc ≠ first) (h' : Rounds host first last k r q) (hq : q.frame.pc ≠ first) :
    k = n ∧ q = r' := by
  induction h generalizing k with
  | none r =>
      cases h' with
      | none => exact ⟨rfl, rfl⟩
      | round hfirst => exact absurd hfirst hr'
  | round hfirst hbody hstep _ ih =>
      cases h' with
      | none => exact absurd hfirst hq
      | round _ hbody' hstep' hrest' =>
          cases hbody.unique hbody'
          rw [hstep] at hstep'
          cases hstep'
          obtain ⟨rfl, rfl⟩ := ih hr' hrest'
          exact ⟨rfl, rfl⟩

theorem Rounds.trans {first last n k : Nat} {r'' : Running} (h : Rounds host first last n r r')
    (h' : Rounds host first last k r' r'') : Rounds host first last (n + k) r r'' := by
  induction h with
  | none r =>
      rw [Nat.zero_add]
      exact h'
  | round hfirst hbody hstep _ ih =>
      rw [Nat.add_right_comm]
      exact .round hfirst hbody hstep (ih h')

theorem Rounds.run {first last n : Nat} (h : Rounds host first last n r r') :
    ∃ steps, (Status.running r).run host steps = .running r' := by
  induction h with
  | none r => exact ⟨0, rfl⟩
  | round _ hbody hstep _ ih =>
      obtain ⟨steps, hrun, -⟩ := hbody.lives.run
      obtain ⟨rest, hrest⟩ := ih
      refine ⟨steps + 1 + rest, ?_⟩
      rw [Status.run_add, Status.run_succ hrun, hstep, hrest]

/-! ## Counting -/

/-- Whenever the loop that begins with `r` has come to its body, after whatever number of rounds,
the body leads to the instruction behind it and leaves the counter as it was. -/
def KeepsCounter (host : Host) (start length a : Nat) (r : Running) : Prop :=
  ∀ r₁ k q, r.step host = .running r₁ → Rounds host (start + 1) (start + length + 1) k r₁ q →
    q.frame.pc = start + 1 →
    ∃ q', q.CarriesOut host (start + length + 1) q' ∧ q'.register? a = q.register? a

/-- The loop that begins with `r`, and whose first step leads to `r₁`, has gone through `k` rounds,
and its counter is `n`. -/
structure Counted (host : Host) (start length a : Nat) (r r₁ : Running) (k : Nat) (n : Int64)
    (q : Running) : Prop where
  rounds : Rounds host (start + 1) (start + length + 1) k r₁ q
  lives : r.Lives host r.callers.length (fun _ => True) q
  level : q.callers.length = r.callers.length
  counter : q.register? a = some (.int n)

variable {r₁ : Running} {k : Nat} {n : Int64}

/-- One round: the body is carried out and the counter goes down by one. While it is positive the
body is entered again. -/
theorem Counted.round (hq : Counted host start length a r r₁ k n q)
    (hlimit : r.machine.limits.instructions = none)
    (hloop : r.frame.proto.HasLoop start length a) (hstart : r.step host = .running r₁)
    (hbody : r.KeepsCounter host start length a) (hpc : q.frame.pc = start + 1) :
    ∃ q₂, Counted host start length a r r₁ (k + 1) (n - 1) q₂ ∧
      q₂.frame.pc = if 0 < n - 1 then start + 1 else start + length + 2 := by
  obtain ⟨q₁, hcarries, hkept⟩ := hbody r₁ k q hstart hq.rounds hpc
  have harrives := hcarries.arrives
  have hcarried := hcarries.lives
  rw [hq.level] at harrives hcarried
  have hlives : r.Lives host r.callers.length (fun _ => True) q₁ :=
    hq.lives.trans (hcarried.mono fun _ _ => trivial)
  -- the activation is topmost again, and at the `ForLoop` of the same code
  have hlimit₁ : q₁.machine.limits.instructions = none := by
    rw [hlives.limits]
    exact hlimit
  have hloop₁ : q₁.frame.proto.HasLoop start length a := by
    rw [hlives.proto harrives.1]
    exact hloop
  obtain ⟨q₂, hstep, hcallers, hnext, hcounter⟩ :=
    step_forLoop host hlimit₁ hloop₁ harrives.2 (hkept.trans hq.counter)
  have hlevel : q₂.callers.length = r.callers.length := by
    rw [hcallers]
    exact harrives.1
  have hround : Rounds host (start + 1) (start + length + 1) 1 q q₂ :=
    .round hpc hcarries hstep (.none q₂)
  exact ⟨q₂, ⟨hq.rounds.trans hround, hlives.step trivial hstep hlevel.ge, hlevel, hcounter⟩, hnext⟩

/-- From a counter of `left + 1` on there are as many rounds to go. -/
theorem Counted.finish {left : Nat} (hq : Counted host start length a r r₁ k n q)
    (hlimit : r.machine.limits.instructions = none)
    (hloop : r.frame.proto.HasLoop start length a) (hstart : r.step host = .running r₁)
    (hbody : r.KeepsCounter host start length a) (hpc : q.frame.pc = start + 1)
    (hleft : n.toInt = left + 1) :
    ∃ q', Counted host start length a r r₁ (k + (left + 1)) 0 q' ∧
      q'.frame.pc = start + length + 2 := by
  induction left generalizing q k n with
  | zero =>
      obtain ⟨q₂, hnext, hpc₂⟩ := hq.round hlimit hloop hstart hbody hpc
      have hzero : n - 1 = 0 := by
        apply Int64.toInt_inj.mp
        rw [toInt_sub_one (by omega), hleft]
        rfl
      rw [hzero] at hnext hpc₂
      exact ⟨q₂, hnext, hpc₂⟩
  | succ left ih =>
      obtain ⟨q₂, hnext, hpc₂⟩ := hq.round hlimit hloop hstart hbody hpc
      have hpred : (n - 1).toInt = left + 1 := by
        rw [toInt_sub_one (by omega), hleft]
        omega
      have hpositive : 0 < n - 1 := by
        apply Int64.lt_iff_toInt_lt.mpr
        rw [hpred]
        exact Int.natCast_succ_pos left
      rw [if_pos hpositive] at hpc₂
      obtain ⟨q', hrest, hout⟩ := ih hnext hpc₂ hpred
      rw [Nat.add_right_comm k 1 (left + 1)] at hrest
      exact ⟨q', hrest, hout⟩

/-- The whole of a loop, from its `ForPrep` on. -/
theorem KeepsCounter.counted (hbody : r.KeepsCounter host start length a)
    (hlimit : r.machine.limits.instructions = none)
    (hloop : r.frame.proto.HasLoop start length a) (hpc : r.frame.pc = start)
    (hn : r.register? a = some (.int n)) :
    ∃ r₁ r', r.step host = .running r₁ ∧
      Counted host start length a r r₁ n.toInt.toNat (if 0 < n then 0 else n) r' ∧
      r'.frame.pc = start + length + 2 := by
  have hbegin {pc : Nat} (hstep : r.step host
      = .running ⟨r.machine.tick, { r.frame with pc }, r.callers⟩) :
      Counted host start length a r ⟨r.machine.tick, { r.frame with pc }, r.callers⟩ 0 n
        ⟨r.machine.tick, { r.frame with pc }, r.callers⟩ :=
    ⟨.none _, .step (.refl (Nat.le_refl _)) trivial hstep (Nat.le_refl _), rfl, hn⟩
  by_cases hpositive : 0 < n
  · have hstep := step_forPrep_enter host hlimit hloop hpc hn (decide_eq_true hpositive)
    have hleft : n.toInt = (n.toInt.toNat - 1 : Nat) + 1 := by
      have hn' : 0 < n.toInt := Int64.lt_iff_toInt_lt.mp hpositive
      omega
    obtain ⟨r', hcounted, hout⟩ := (hbegin hstep).finish hlimit hloop hstep hbody rfl hleft
    rw [Nat.zero_add, Nat.sub_add_cancel (by omega)] at hcounted
    rw [if_pos hpositive]
    exact ⟨_, r', hstep, hcounted, hout⟩
  · have hstep := step_forPrep_exit host hlimit hloop hpc hn (decide_eq_false hpositive)
    have hn' : ¬ 0 < n.toInt := fun h => hpositive (Int64.lt_iff_toInt_lt.mpr h)
    rw [Int.toNat_of_nonpos (Int.not_lt.mp hn'), if_neg hpositive]
    exact ⟨_, _, hstep, hbegin hstep, rfl⟩

/-- **A counted loop runs its body as often as its counter says.** Let control be at a loop, on a
machine without a limit on instructions. If the counter is the integer `n`, and the body leads to
the instruction behind it each time and leaves the counter as it was, then control comes out behind
the loop in the same activation after exactly `n` rounds, or none if `n` is negative; the counter is
0 then, or still `n` if there was no round. If the counter is not a number, control goes around the
body at once, and nothing changes. -/
theorem counted_loop {host : Host} {r : Running} {start length a : Nat}
    (hlimit : r.machine.limits.instructions = none)
    (hloop : r.frame.proto.HasLoop start length a) (hpc : r.frame.pc = start) :
    (∀ n : Int64, r.register? a = some (.int n) → r.KeepsCounter host start length a →
      ∃ r₁ r', r.step host = .running r₁ ∧
        Rounds host (start + 1) (start + length + 1) n.toInt.toNat r₁ r' ∧
        (∀ k q, Rounds host (start + 1) (start + length + 1) k r₁ q →
          q.frame.pc = start + length + 2 → k = n.toInt.toNat ∧ q = r') ∧
        r.Lives host r.callers.length (fun _ => True) r' ∧
        r'.At r.callers.length (start + length + 2) ∧
        r'.register? a = some (.int (if 0 < n then 0 else n))) ∧
    (∀ v, r.register? a = some v → v.number? = none →
      ∃ r', r.step host = .running r' ∧ r'.machine.heap = r.machine.heap ∧
        r'.frame = { r.frame with pc := start + length + 2 } ∧ r'.callers = r.callers) := by
  constructor
  · intro n hn hbody
    obtain ⟨r₁, r', hstep, hcounted, hout⟩ := hbody.counted hlimit hloop hpc hn
    refine ⟨r₁, r', hstep, hcounted.rounds, fun k q hq hout' => ?_, hcounted.lives,
      ⟨hcounted.level, hout⟩, hcounted.counter⟩
    exact hcounted.rounds.unique (by omega) hq (by omega)
  · intro v hv hnumber
    have hstep := step_forPrep_exit host hlimit hloop hpc hv (by rw [hnumber]; rfl)
    exact ⟨_, hstep, rfl, rfl, rfl⟩

end Running

/-! ## A loop that calls -/

/-- A function that counts up R[1] three times, in a loop that calls a closure which shares R[1]. -/
def Prototype.tally : Prototype where
  stackSize := 4
  code := #[.ofAsBx .loadI 0 3, .ofAsBx .loadI 1 10, .ofABx .closure 2 0, .ofABx .forPrep 0 2,
    .ofABC .move 3 2 0 false, .ofABC .call 3 1 0 false, .ofABx .forLoop 0 3,
    .ofABC .ret 0 3 0 false]
  protos :=
    [{ code := #[.ofABC .getUpvalue 0 0 0 false, .ofABC .addI 0 0 1 false,
         .ofABC .setUpvalue 0 0 0 false]
       upvalues := [⟨true, 1, 0⟩] }]

/-- The run of `Prototype.tally` after some steps. -/
def Prototype.tallyAfter (steps : Nat) : Status :=
  (Machine.callPrototype {} .tally [] [] 0).run (Host.library Value.text) steps

/-- A function with a loop on a register to which nothing has been written. -/
def Prototype.idle : Prototype where
  code := #[.ofABx .forPrep 0 1, .ofABC .addI 1 1 1 false, .ofABx .forLoop 0 2]

namespace Running

/-- The run of `Prototype.tally` is over before long, and wherever it is at the body, it is six steps
to the end of the body. -/
theorem tally_keepsCounter {r : Running} (hr : Prototype.tallyAfter 3 = .running r) :
    r.KeepsCounter (Host.library Value.text) 3 2 0 := by
  have hcheck : ∀ n < 22, (Prototype.tallyAfter (4 + n)).running?.all fun q =>
      decide (q.frame.pc = 4 → q.callers.length = 0 ∧
        ((Prototype.tallyAfter (4 + n + 6)).running?.any fun q' =>
          decide (q'.At 0 6 ∧ q'.register? 0 = q.register? 0)) ∧
        ∀ k < 6, (Prototype.tallyAfter (4 + n + k)).running?.all fun c => decide (¬ c.At 0 6)) := by
    decide +kernel
  have hend : (Prototype.tallyAfter 26).outcome?.isSome := by decide +kernel
  intro r₁ k q hstep hrounds hpc
  obtain ⟨n, hrun⟩ := hrounds.run
  have hq : Prototype.tallyAfter (4 + n) = .running q := by
    rw [Prototype.tallyAfter, Status.run_add, ← hrun, ← hstep]
    exact congrArg (Status.run _ n) (Status.run_succ hr)
  have hlater (k : Nat) :
      (Status.running q).run (Host.library Value.text) k = Prototype.tallyAfter (4 + n + k) := by
    rw [Prototype.tallyAfter, Status.run_add, ← hq]
    rfl
  have hn : n < 22 := by
    by_contra hge
    obtain ⟨rest, rfl⟩ := Nat.exists_eq_add_of_le (Nat.not_lt.mp hge)
    rw [← Nat.add_assoc] at hq
    obtain ⟨q', hq'⟩ := Status.exists_running_before hq
    rw [Prototype.tallyAfter, hq'] at hend
    cases hend
  have hbody := hcheck n hn
  rw [hq] at hbody
  obtain ⟨hbottom, hthere, hbefore⟩ := of_decide_eq_true hbody hpc
  obtain ⟨q', hq', hlast, hkept⟩ := Status.exists_running hthere
  refine ⟨q', carriesOut_of_run hbottom ((hlater 6).trans hq') hlast fun k hk c hc => ?_, hkept⟩
  have hnot := hbefore k hk
  rw [← hlater k, hc] at hnot
  exact of_decide_eq_true hnot

/-- The loop of `Prototype.tally` goes round three times, and a loop on a register that holds nil
not at all. -/
theorem counted_loop_tally :
    (∃ r r₁ r', Prototype.tallyAfter 3 = .running r ∧ r.register? 0 = some (.int 3) ∧
      r.step (Host.library Value.text) = .running r₁ ∧
      Rounds (Host.library Value.text) 4 6 3 r₁ r' ∧ r'.At 0 7 ∧
      r'.register? 0 = some (.int 0)) ∧
    ∃ r r', Machine.callPrototype {} .idle [] [] 0 = .running r ∧ r.register? 0 = some .nil ∧
      r.step (Host.library Value.text) = .running r' ∧ r'.frame.pc = 3 := by
  constructor
  · obtain ⟨r, hr, hlimit, hcode, hpc, hbottom, hcounter⟩ : ∃ r,
        Prototype.tallyAfter 3 = .running r ∧ r.machine.limits.instructions = none ∧
          r.frame.proto.code = Prototype.tally.code ∧ r.frame.pc = 3 ∧ r.callers.length = 0 ∧
          r.register? 0 = some (.int 3) :=
      Status.exists_running (by decide +kernel)
    have hloop : r.frame.proto.HasLoop 3 2 0 := by
      constructor <;> rw [hcode]
      · exact ⟨.ofABx .forPrep 0 2, rfl, by decide⟩
      · exact ⟨.ofABx .forLoop 0 3, rfl, by decide⟩
    obtain ⟨r₁, r', hstep, hrounds, -, -, hat, hzero⟩ :=
      (counted_loop hlimit hloop hpc).1 3 hcounter (tally_keepsCounter hr)
    rw [hbottom] at hat
    exact ⟨r, r₁, r', hr, hcounter, hstep, hrounds, hat, hzero⟩
  · obtain ⟨r, hr, hlimit, hcode, hpc, hnil⟩ : ∃ r,
        Machine.callPrototype {} .idle [] [] 0 = .running r ∧
          r.machine.limits.instructions = none ∧ r.frame.proto.code = Prototype.idle.code ∧
          r.frame.pc = 0 ∧ r.register? 0 = some .nil :=
      Status.exists_running (by decide +kernel)
    have hloop : r.frame.proto.HasLoop 0 1 0 := by
      constructor <;> rw [hcode]
      · exact ⟨.ofABx .forPrep 0 1, rfl, by decide⟩
      · exact ⟨.ofABx .forLoop 0 2, rfl, by decide⟩
    obtain ⟨r', hstep, -, hframe, -⟩ := (counted_loop hlimit hloop hpc).2 .nil hnil rfl
    exact ⟨r, r', hr, hnil, hstep, by rw [hframe]⟩

end Running

end LuaBytecode
