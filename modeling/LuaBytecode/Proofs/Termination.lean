import Mathlib
import LuaBytecode.Proofs.Depth
import LuaBytecode.Proofs.Format
import LuaBytecode.Proofs.Forward
import LuaBytecode.Proofs.Simulation

/-! # Loop-free code ends

Without a budget a run may go on for ever in two ways: by jumps backward, or by calls
without end. If no function jumps backward only calls are left, and the limit on the depth
stops these.

There is no number that each step lowers. A call puts a whole function on top of the
stack. But the activation that calls has less of its code before it than when it came to
the call, and this does not grow again while it waits. So what counts is how much code
each live activation has before it, from the first activation to the topmost: in the
lexicographic order every step goes down. The order is well-founded because the limit
bounds the number of activations.
-/

namespace LuaBytecode

/-! ## Functions without loops -/

/-- Neither the function nor any that is nested in it jumps backward. -/
def Prototype.LoopFree (p : Prototype) : Prop :=
  p.Everywhere fun q => ∀ i ∈ q.code, i.Forward

/-- All closures are of loop-free functions. -/
def Heap.LoopFree (h : Heap) : Prop := ∀ c ∈ h.closures, c.proto.LoopFree

theorem Heap.loopFree_iff {h : Heap} :
    h.LoopFree ↔ ∀ ref, (h.closure ref).proto.LoopFree := by
  constructor
  · intro hh ref
    rcases Nat.lt_or_ge ref h.closures.size with hlt | hge
    · have hclosure : h.closure ref = h.closures[ref] := by
        simp [closure, Array.getD_eq_getD_getElem?, hlt]
      rw [hclosure]
      exact hh _ (Array.getElem_mem hlt)
    · -- a reference to no closure stands for a function without code
      rw [closure_of_size_le hge]
      exact .intro (fun i hi => absurd hi (Array.not_mem_empty i))
        fun c hc => absurd hc List.not_mem_nil
  · intro hh c hc
    obtain ⟨ref, hlt, rfl⟩ := Array.getElem_of_mem hc
    have hclosure := hh ref
    rwa [closure, Array.getD_eq_getD_getElem?, Array.getElem?_eq_getElem hlt] at hclosure

/-- A loop-free function corresponds to itself and to nothing else, so a run that is alike
to itself in this way has no other functions in it. -/
def Correspondence.loopFree : Correspondence where
  rel p q := p = q ∧ p.LoopFree
  code h := by rw [h.1]
  constants h := by rw [h.1]
  paramCount h := by rw [h.1]
  stackSize h := by rw [h.1]
  places h := by rw [h.1]
  protos_length h := by rw [h.1]
  protos_get := by
    rintro p _ c i ⟨rfl, hp⟩ hc
    exact ⟨c, hc, rfl, hp.nested c (List.mem_of_getElem? hc)⟩

theorem Heap.LoopFree.alike {h : Heap} (hh : h.LoopFree) :
    h.Alike Correspondence.loopFree.rel h where
  cells := rfl
  tables := rfl
  size := rfl
  closures ref := ⟨⟨rfl, loopFree_iff.mp hh ref⟩, rfl, rfl⟩

theorem Heap.Alike.loopFree {h h' : Heap} (hh : h.Alike Correspondence.loopFree.rel h') :
    h.LoopFree :=
  loopFree_iff.mpr fun ref => (hh.closures ref).proto.2

/-! ## What the activations have before them -/

/-- How much of its code each waiting activation has before it, the topmost last. -/
def Caller.lefts (callers : List Caller) : List Nat :=
  (callers.map fun c => c.frame.left).reverse

theorem Caller.lefts_cons (c : Caller) (rest : List Caller) :
    lefts (c :: rest) = lefts rest ++ [c.frame.left] := by
  rw [lefts, List.map_cons, List.reverse_cons, lefts]

/-- How much of its code each live activation has before it, the topmost last. -/
def Running.lefts (r : Running) : List Nat := Caller.lefts r.callers ++ [r.frame.left]

theorem Running.length_lefts (r : Running) : r.lefts.length = r.callers.length + 1 := by
  simp [lefts, Caller.lefts]

namespace Machine

variable {m : Machine} {r : Running} {callers : List Caller}

/-- Results lower the order, as an activation has ended: those that wait have no more
before them than they had. -/
theorem deliver_lefts_lt {results : List Value} (h : m.deliver results callers = .running r)
    (n : Nat) : r.lefts < Caller.lefts callers ++ [n] := by
  induction callers generalizing m n with
  | nil => cases h
  | cons caller rest ih =>
      obtain ⟨frame, delivery⟩ := caller
      rw [Caller.lefts_cons, List.append_assoc]
      cases delivery with
      | forward => exact (ih h frame.left).trans (List.append_left_lt (.cons .nil))
      | store first wanted =>
          cases hs : Exec.storeResults first wanted results ⟨frame, m.heap⟩ with
          | ok a s =>
              have hleft : s.frame.left ≤ frame.left := Exec.advances_of_ok
                (Exec.advances_inherited.storeResults first wanted results) hs
              rw [deliver_store_ok rest hs] at h
              cases h
              refine List.append_left_lt ?_
              rcases hleft.lt_or_eq with hlt | heq
              · exact List.Lex.rel hlt
              · exact heq ▸ List.Lex.cons List.Lex.nil
          | error fault s =>
              rw [deliver_store_error rest hs] at h
              cases h

theorem callers_of_enter {proto : Prototype} {upvalues : List CellRef} {args : List Value}
    {fileUpvalues : Nat} (h : m.enter proto upvalues args fileUpvalues callers = .running r) :
    r.callers = callers := by
  rcases Nat.lt_or_ge m.depth m.limits.depth with hroom | hfull
  · rw [enter_room hroom] at h
    cases h
    rfl
  · rw [enter_full hfull] at h
    cases h

/-- A call lowers the order as soon as the activation that calls has gone on, whatever
begins above it. -/
theorem call_lefts_lt {host : Host} {callee : Value} {args : List Value} {c : Caller} {n : Nat}
    (hn : c.frame.left < n) (h : m.call host callee args (c :: callers) = .running r) :
    r.lefts < Caller.lefts callers ++ [n] := by
  have hlower (above : List Nat) :
      Caller.lefts (c :: callers) ++ above < Caller.lefts callers ++ [n] := by
    rw [Caller.lefts_cons, List.append_assoc]
    exact List.append_left_lt (List.Lex.rel hn)
  cases callee with
  | closure ref =>
      rw [Running.lefts, callers_of_enter h]
      exact hlower _
  | host name =>
      cases hreply : (host name args m.heap.tables).outcome with
      | ok results =>
          rw [call_host_ok _ hreply] at h
          exact (deliver_lefts_lt h 0).trans (hlower [0])
      | error message =>
          rw [call_host_error _ hreply] at h
          cases h
  | _ =>
      rw [call_of_not_callable host m rfl] at h
      cases h

/-- An instruction uses up code unless it jumps backward. -/
theorem attempt_left_lt {m' : Machine} {f f' : Frame} {i : Instruction} {next : Next}
    (hcode : f.proto.code[f.pc]? = some i) (hforward : i.Forward)
    (h : m.attempt f i = (.ok next, m', f')) : f'.left < f.left := by
  obtain ⟨op, s, hop, hx, -, rfl⟩ := attempt_ok_cases h
  have hmoved : Frame.left { f with pc := f.pc + 1 } < f.left := by
    have hpc : f.pc < f.proto.code.size := (Array.getElem?_eq_some_iff.mp hcode).1
    exact Nat.sub_succ_lt_self _ _ hpc
  exact (Exec.advances_of_ok (Exec.advances_execute hforward hop) hx).trans_lt hmoved

end Machine

namespace Running

variable {host : Host} {r r' : Running}

theorem follow_lefts_lt {next : Next} {n : Nat} (hn : r.frame.left < n)
    (h : r.follow host next = .running r') : r'.lefts < Caller.lefts r.callers ++ [n] := by
  cases next with
  | proceed =>
      cases h
      exact List.append_left_lt (List.Lex.rel hn)
  | call callee args first wanted =>
      exact Machine.call_lefts_lt (c := ⟨r.frame, .store first wanted⟩) hn h
  | tailCall callee args => exact Machine.call_lefts_lt (c := ⟨r.frame, .forward⟩) hn h
  | finish results => exact Machine.deliver_lefts_lt h n

/-- Each step of loop-free code lowers what the activations have before them. -/
theorem step_lefts_lt (hforward : ∀ i ∈ r.frame.proto.code, i.Forward)
    (h : r.step host = .running r') : r'.lefts < r.lefts := by
  cases hcode : r.frame.proto.code[r.frame.pc]? with
  | none =>
      rw [step_end hcode] at h
      exact Machine.deliver_lefts_lt h r.frame.left
  | some i =>
      have hi : i.Forward := hforward i (Array.mem_of_getElem? hcode)
      obtain ⟨⟨x, m, f⟩, hx⟩ : ∃ result, r.machine.attempt r.frame i = result := ⟨_, rfl⟩
      cases x with
      | ok next =>
          rw [step_of_attempt_ok hcode hx] at h
          exact follow_lefts_lt (r := ⟨m, f, r.callers⟩) (Machine.attempt_left_lt hcode hi hx) h
      | error fault =>
          rw [step_of_attempt_error hcode hx] at h
          cases h

end Running

/-! ## Bounded lists -/

/-- An entry of a list, where an entry that is missing counts less than any other. -/
def rank (ns : List Nat) (i : Nat) : Nat := ns[i]?.elim 0 Nat.succ

theorem exists_rank_lt {ms ns : List Nat} (h : List.Lex (· < ·) ms ns) :
    ∃ i < ns.length, (∀ j < i, rank ms j = rank ns j) ∧ rank ms i < rank ns i := by
  induction h with
  | nil => exact ⟨0, Nat.succ_pos _, nofun, Nat.succ_pos _⟩
  | rel hlt => exact ⟨0, Nat.succ_pos _, nofun, Nat.succ_lt_succ hlt⟩
  | cons _ ih =>
      obtain ⟨i, hi, hbefore, hat⟩ := ih
      refine ⟨i + 1, Nat.succ_lt_succ hi, ?_, hat⟩
      rintro (_ | j) hj
      · rfl
      · exact hbefore j (Nat.lt_of_succ_lt_succ hj)

/-- The entries of a list at the places below `limit`. -/
def ranks (limit : Nat) (ns : List Nat) : Lex (Fin limit → Nat) := toLex fun i => rank ns i

/-- Lists of bounded length are ordered like their entries, and so the order of such lists
is well-founded. -/
theorem ranks_lt_ranks {limit : Nat} {ms ns : List Nat} (hlength : ns.length ≤ limit)
    (h : ms < ns) : ranks limit ms < ranks limit ns := by
  obtain ⟨i, hi, hbefore, hat⟩ := exists_rank_lt h
  exact ⟨⟨i, hi.trans_le hlength⟩, fun j hj => hbefore j hj, hat⟩

/-! ## Runs -/

theorem Running.ends_of_alike {host : Host} {limit base : Nat} {r : Running}
    (hloop : (Status.running r).Alike Correspondence.loopFree.rel (.running r))
    (hdepth : (Status.running r).Bracketed limit base) :
    ∃ final outcome, (Status.running r).Ends host final outcome := by
  induction hranks : ranks limit r.lefts using WellFoundedLT.induction generalizing r with
  | ind x ih =>
      cases hstep : r.step host with
      | finished m outcome => exact ⟨m, outcome, 1, hstep⟩
      | running r' =>
          have hloop' : (r.step host).Alike Correspondence.loopFree.rel (r.step host) :=
            hloop.run 1
          have hdepth' : (r.step host).Bracketed limit base := hdepth.run host 1
          rw [hstep] at hloop' hdepth'
          have hlower : ranks limit r'.lefts < x := by
            obtain ⟨hr⟩ := hloop
            have hlength : r.lefts.length ≤ limit := by
              have hwithin := hdepth.within (Nat.succ_pos _)
              rw [hdepth.depth] at hwithin
              exact r.length_lefts ▸ (Nat.le_add_left _ _).trans hwithin
            exact hranks ▸ ranks_lt_ranks hlength (step_lefts_lt hr.frame.proto.2.here hstep)
          obtain ⟨final, outcome, steps, hends⟩ := ih _ hlower hloop' hdepth' rfl
          refine ⟨final, outcome, steps + 1, ?_⟩
          rw [Status.run_running, hstep, hends]

/-- **Loop-free code ends.** If neither a function nor any closure there is jumps backward,
every call of the function ends, with or without a budget, however the functions call each
other and themselves. It leaves behind loop-free closures only. -/
theorem Machine.ends_of_loopFree {m : Machine} {proto : Prototype} (hproto : proto.LoopFree)
    (hheap : m.heap.LoopFree) (host : Host) (upvalues : List CellRef) (args : List Value)
    (fileUpvalues : Nat) :
    ∃ final outcome, (m.callPrototype proto upvalues args fileUpvalues).Ends host final outcome ∧
      final.heap.LoopFree := by
  have hm : m.Alike Correspondence.loopFree.rel m := ⟨rfl, rfl, rfl, rfl, hheap.alike⟩
  have hloop : (m.callPrototype proto upvalues args fileUpvalues).Alike
      Correspondence.loopFree.rel (m.callPrototype proto upvalues args fileUpvalues) :=
    hm.enter ⟨rfl, hproto⟩ upvalues args fileUpvalues .nil
  have hdepth : (m.callPrototype proto upvalues args fileUpvalues).Bracketed m.limits.depth
      m.depth := enter_bracketed rfl rfl _ _ _ _
  obtain ⟨final, outcome, steps, hends⟩ :
      ∃ final outcome, (m.callPrototype proto upvalues args fileUpvalues).Ends host final
        outcome := by
    generalize m.callPrototype proto upvalues args fileUpvalues = s at hloop hdepth
    cases s with
    | finished final outcome => exact ⟨final, outcome, 0, rfl⟩
    | running r => exact r.ends_of_alike hloop hdepth
  refine ⟨final, outcome, ⟨steps, hends⟩, ?_⟩
  have hfinal : ((m.callPrototype proto upvalues args fileUpvalues).run host steps).Alike
      Correspondence.loopFree.rel _ := hloop.run steps
  rw [hends] at hfinal
  cases hfinal with
  | finished halike => exact halike.heap.loopFree

/-- A function that calls its upvalue. -/
def Prototype.volley : Prototype where
  stackSize := 1
  code := #[.ofABC .getUpvalue 0 0 0 false, .ofABC .call 0 1 1 false]
  upvalues := [⟨false, 0, 0⟩]

/-- Two closures that call each other, without a budget. -/
theorem Machine.ends_of_loopFree_mutual :
    Prototype.volley.LoopFree ∧
    Heap.LoopFree ⟨#[.closure 1, .closure 0], #[], #[⟨.volley, [0], 0⟩, ⟨.volley, [1], 0⟩]⟩ ∧
    ∃ final outcome,
      (callPrototype
        { heap := ⟨#[.closure 1, .closure 0], #[], #[⟨.volley, [0], 0⟩, ⟨.volley, [1], 0⟩]⟩ }
        .volley [0] [] 0).Ends (Host.library Value.text) final outcome ∧
      final.heap.LoopFree := by
  have hvolley : Prototype.volley.LoopFree := .intro (by decide) nofun
  have hheap : Heap.LoopFree
      ⟨#[.closure 1, .closure 0], #[], #[⟨.volley, [0], 0⟩, ⟨.volley, [1], 0⟩]⟩ := by
    simp [Heap.LoopFree, hvolley]
  exact ⟨hvolley, hheap, ends_of_loopFree (m := { heap := _ }) hvolley hheap _ [0] [] 0⟩

end LuaBytecode
