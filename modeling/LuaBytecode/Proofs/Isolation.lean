import Mathlib
import LuaBytecode.Host.Library
import LuaBytecode.Proofs.Activations

/-! # Registers are variables of their own

Registers are cells of the heap, and so are upvalues: closures capture the cells
of registers, and the host hands over cells that were there before the run. All
the same no two registers of the live activations are one cell, and none is an
upvalue of the activation it belongs to. What makes this last is that the cells
of a register are new when the activation begins or closes it, while all that
is captured is a cell that exists already.
-/

namespace LuaBytecode

/-- The cells that closures have captured are there. -/
def Heap.Sound (h : Heap) : Prop := ∀ ref, ∀ x ∈ (h.closure ref).upvalues, x < h.cells.size

theorem Heap.sound_empty : Heap.Sound {} :=
  fun ref x hx => absurd hx (Scope.Changes.not_captured (Nat.zero_le ref) x)

/-- The registers of an activation are distinct cells that exist, and none of its
upvalues. -/
structure Frame.Isolated (f : Frame) (size : Nat) : Prop where
  length : f.registers.length = f.proto.stackSize.toNat
  nodup : f.registers.Nodup
  upvalues : f.registers.Disjoint f.upvalues
  lt : ∀ x, f.Holds x → x < size

/-- Of all live activations, no two share a register. -/
structure Snapshot.Isolated (s : Snapshot) : Prop where
  sound : s.heap.Sound
  frames : ∀ f ∈ s.frames, f.Isolated s.heap.cells.size
  apart : s.frames.Pairwise fun f g => f.registers.Disjoint g.registers

/-- Between two runs nothing is live. -/
theorem Heap.Sound.idle {h : Heap} (hsound : h.Sound) : Snapshot.Isolated ⟨h, []⟩ :=
  ⟨hsound, nofun, .nil⟩

/-! ## New activations -/

namespace Scope

variable (proto : Prototype) (upvalues : List CellRef) (args : List Value) (fileUpvalues : Nat)
  (h : Heap)

@[simp]
theorem enter_registers :
    (enter proto upvalues args fileUpvalues h).frame.registers
      = List.range' h.cells.size proto.stackSize.toNat := by
  simp only [enter, Heap.newCells, List.length_append, List.length_replicate]
  congr 1
  rw [List.length_take]
  omega

/-- The upvalues are those that are given, as far as there is use for them, and
then new cells behind the registers. -/
theorem enter_upvalues :
    ∃ missing,
      (enter proto upvalues args fileUpvalues h).frame.upvalues
        = upvalues.take (max proto.upvalues.length fileUpvalues)
          ++ List.range' (h.cells.size + proto.stackSize.toNat) missing ∧
      (enter proto upvalues args fileUpvalues h).heap.cells.size
        = h.cells.size + proto.stackSize.toNat + missing ∧
      missing = max proto.upvalues.length fileUpvalues
        - (upvalues.take (max proto.upvalues.length fileUpvalues)).length := by
  have hgiven : ((args.take proto.paramCount.toNat).take proto.stackSize.toNat).length
      ≤ proto.stackSize.toNat := List.length_take_le _ _
  simp only [enter, Heap.newCells, List.length_append, List.length_replicate, Array.size_append,
    List.size_toArray, Nat.add_sub_cancel' hgiven]
  exact ⟨_, rfl, rfl, rfl⟩

theorem le_enter_size :
    h.cells.size + proto.stackSize.toNat
      ≤ (enter proto upvalues args fileUpvalues h).heap.cells.size := by
  obtain ⟨missing, -, hsize, -⟩ := enter_upvalues proto upvalues args fileUpvalues h
  rw [hsize]
  exact Nat.le_add_right _ _

variable {proto upvalues args fileUpvalues h}

theorem mem_enter_upvalues {x : CellRef}
    (hx : x ∈ (enter proto upvalues args fileUpvalues h).frame.upvalues) :
    x ∈ upvalues ∨ h.cells.size + proto.stackSize.toNat ≤ x ∧
      x < (enter proto upvalues args fileUpvalues h).heap.cells.size := by
  obtain ⟨missing, hupvalues, hsize, -⟩ := enter_upvalues proto upvalues args fileUpvalues h
  rw [hupvalues, List.mem_append] at hx
  rcases hx with hgiven | hfresh
  · exact Or.inl (List.mem_of_mem_take hgiven)
  · rw [List.mem_range'_1] at hfresh
    rw [hsize]
    exact Or.inr hfresh

/-- A new activation holds what it is given and cells that were not there. -/
theorem holds_enter {x : CellRef}
    (hx : (enter proto upvalues args fileUpvalues h).frame.Holds x) :
    x ∈ upvalues ∨ h.cells.size ≤ x := by
  rcases hx with hregister | hupvalue
  · rw [enter_registers, List.mem_range'_1] at hregister
    exact Or.inr hregister.1
  · rcases mem_enter_upvalues hupvalue with hgiven | hfresh
    · exact Or.inl hgiven
    · exact Or.inr ((Nat.le_add_right _ _).trans hfresh.1)

theorem enter_cell_of_lt {x : CellRef} (hx : x < h.cells.size) :
    (enter proto upvalues args fileUpvalues h).heap.cell x = h.cell x := by
  have hlater {values : List Value} : x < (h.newCells values).2.cells.size :=
    hx.trans_le (Heap.Extends.newCells h values).cells
  exact (Heap.cell_newCells_of_lt hlater _).trans (Heap.cell_newCells_of_lt hx _)

/-- A new activation is isolated if the cells that it is given are there. -/
theorem enter_isolated (hupvalues : ∀ x ∈ upvalues, x < h.cells.size) :
    (enter proto upvalues args fileUpvalues h).frame.Isolated
      (enter proto upvalues args fileUpvalues h).heap.cells.size where
  length := by
    rw [enter_registers, List.length_range']
    rfl
  nodup := by
    rw [enter_registers]
    exact List.nodup_range'
  upvalues := by
    intro x hregister hupvalue
    rw [enter_registers, List.mem_range'_1] at hregister
    rcases mem_enter_upvalues hupvalue with hgiven | hfresh
    · exact absurd (hupvalues x hgiven) (Nat.not_lt.mpr hregister.1)
    · exact absurd hregister.2 (Nat.not_lt.mpr hfresh.1)
  lt := by
    have hsize := le_enter_size proto upvalues args fileUpvalues h
    rintro x (hregister | hupvalue)
    · rw [enter_registers, List.mem_range'_1] at hregister
      exact hregister.2.trans_le hsize
    · rcases mem_enter_upvalues hupvalue with hgiven | hfresh
      · exact (hupvalues x hgiven).trans_le ((Nat.le_add_right _ _).trans hsize)
      · exact hfresh.2

end Scope

/-! ## Closed registers -/

theorem Scope.mem_renew_registers {s : Scope} {first : Nat} {x : CellRef}
    (hx : x ∈ (s.renew first).frame.registers) :
    x ∈ s.frame.registers ∨ s.heap.cells.size ≤ x := by
  rw [renew_registers, List.mem_append, List.mem_range'_1] at hx
  rcases hx with hkept | hfresh
  · exact Or.inl (List.mem_of_mem_take hkept)
  · exact Or.inr hfresh.1

theorem Scope.renew_size (s : Scope) (first : Nat) :
    (s.renew first).heap.cells.size
      = s.heap.cells.size + (s.frame.registers.length - first) := by
  simp [renew, Heap.newCells]

/-- Closing registers of an isolated activation leaves it isolated. -/
theorem Frame.Isolated.renew {s : Scope} (hs : s.frame.Isolated s.heap.cells.size) (first : Nat) :
    (s.renew first).frame.Isolated (s.renew first).heap.cells.size where
  length := by
    rw [Scope.renew_length]
    exact hs.length
  nodup := by
    rw [Scope.renew_registers, List.nodup_append']
    refine ⟨hs.nodup.sublist (List.take_sublist _ _), List.nodup_range', ?_⟩
    intro x hkept hfresh
    have hlt : x < s.heap.cells.size := hs.lt x (Or.inl (List.mem_of_mem_take hkept))
    rw [List.mem_range'_1] at hfresh
    exact absurd hlt (Nat.not_lt.mpr hfresh.1)
  upvalues := by
    intro x hregister hupvalue
    rcases Scope.mem_renew_registers hregister with hold | hnew
    · exact hs.upvalues hold hupvalue
    · exact absurd (hs.lt x (Or.inr hupvalue)) (Nat.not_lt.mpr hnew)
  lt := by
    rintro x (hregister | hupvalue)
    · rw [Scope.renew_registers, List.mem_append, List.mem_range'_1] at hregister
      rw [Scope.renew_size]
      rcases hregister with hkept | hfresh
      · exact Nat.lt_add_right _ (hs.lt x (Or.inl (List.mem_of_mem_take hkept)))
      · exact hfresh.2
    · rw [Scope.renew_size]
      exact Nat.lt_add_right _ (hs.lt x (Or.inr hupvalue))

/-! ## Moves -/

theorem Frame.Isolated.mono {f : Frame} {size size' : Nat} (h : f.Isolated size)
    (hle : size ≤ size') : f.Isolated size' :=
  { h with lt := fun x hx => (h.lt x hx).trans_le hle }

theorem Heap.Sound.of_extends {h h' : Heap} (hsound : h.Sound) (hle : h.cells.size ≤ h'.cells.size)
    (hclosures : h'.closures = h.closures) : h'.Sound := by
  intro ref x hx
  have hsame : h'.closure ref = h.closure ref := by rw [closure, closure, hclosures]
  rw [hsame] at hx
  exact (hsound ref x hx).trans_le hle

namespace Snapshot.Isolated

variable {h : Heap} {frames : List Frame}

/-- A new activation on top, given cells that are there. -/
theorem enter (hs : Isolated ⟨h, frames⟩) {upvalues : List CellRef}
    (hupvalues : ∀ x ∈ upvalues, x < h.cells.size) (proto : Prototype) (args : List Value)
    (fileUpvalues : Nat) :
    Isolated ⟨(Scope.enter proto upvalues args fileUpvalues h).heap,
      (Scope.enter proto upvalues args fileUpvalues h).frame :: frames⟩ := by
  have hsize : h.cells.size ≤ (Scope.enter proto upvalues args fileUpvalues h).heap.cells.size :=
    (Nat.le_add_right _ _).trans (Scope.le_enter_size proto upvalues args fileUpvalues h)
  refine ⟨hs.sound.of_extends hsize rfl, ?_, ?_⟩
  · intro f hf
    rcases List.mem_cons.mp hf with rfl | hf
    · exact Scope.enter_isolated hupvalues
    · exact (hs.frames f hf).mono hsize
  · refine List.pairwise_cons.mpr ⟨?_, hs.apart⟩
    intro g hg x hx hxg
    rw [Scope.enter_registers, List.mem_range'_1] at hx
    have hlt : x < h.cells.size := (hs.frames g hg).lt x (Or.inl hxg)
    exact absurd hlt (Nat.not_lt.mpr hx.1)

end Snapshot.Isolated

/-- **No move makes two registers one.** -/
theorem Snapshot.isolated_stable : Stable Isolated := by
  intro turn closing s s' hmove hs
  cases hmove with
  | @work h h' f f' rest hchanges =>
      have hf : f.Isolated h.cells.size := hs.frames f List.mem_cons_self
      have hregisters : f'.registers = f.registers := hchanges.registers_eq
      have hcells : h'.cells.size = h.cells.size := hchanges.cells
      refine ⟨?_, ?_, ?_⟩
      · intro ref x hx
        rw [hcells]
        -- a closure was there before, or it has captured what the activation holds
        rcases Nat.lt_or_ge ref h.closures.size with hold | hnew
        · rw [hchanges.closure ref hold] at hx
          exact hs.sound ref x hx
        · exact hf.lt x (hchanges.captured ref hnew x hx)
      · intro g hg
        rw [hcells]
        rcases List.mem_cons.mp hg with rfl | hg
        · refine ⟨?_, ?_, ?_, ?_⟩
          · rw [hregisters, hchanges.proto_eq]
            exact hf.length
          · rw [hregisters]
            exact hf.nodup
          · rw [hregisters, hchanges.upvalues_eq]
            exact hf.upvalues
          · intro x hx
            exact hf.lt x ((hchanges.holds_iff x).mp hx)
        · exact hs.frames g (List.mem_cons_of_mem f hg)
      · obtain ⟨htop, hrest⟩ := List.pairwise_cons.mp hs.apart
        refine List.pairwise_cons.mpr ⟨?_, hrest⟩
        rw [hregisters]
        exact htop
  | @close rest first h f hclosing =>
      have hf : f.Isolated h.cells.size := hs.frames f List.mem_cons_self
      have hsize : h.cells.size ≤ (Scope.renew ⟨f, h⟩ first).heap.cells.size := by
        rw [Scope.renew_size]
        exact Nat.le_add_right _ _
      refine ⟨hs.sound.of_extends hsize rfl, ?_, ?_⟩
      · intro g hg
        rcases List.mem_cons.mp hg with rfl | hg
        · exact Frame.Isolated.renew (s := ⟨f, h⟩) hf first
        · exact (hs.frames g (List.mem_cons_of_mem f hg)).mono hsize
      · obtain ⟨htop, hrest⟩ := List.pairwise_cons.mp hs.apart
        refine List.pairwise_cons.mpr ⟨?_, hrest⟩
        intro g hg x hx hxg
        rcases Scope.mem_renew_registers hx with hold | hnew
        · exact htop g hg hold hxg
        · have hlt := (hs.frames g (List.mem_cons_of_mem f hg)).lt x (Or.inl hxg)
          exact absurd hlt (Nat.not_lt.mpr hnew)
  | enter h frames ref args =>
      exact Isolated.enter hs (hs.sound ref) _ args _
  | leave h f rest =>
      exact ⟨hs.sound, fun g hg => hs.frames g (List.mem_cons_of_mem f hg), hs.apart.of_cons⟩
  | host h frames tables =>
      exact ⟨hs.sound.of_extends (Nat.le_refl _) rfl, hs.frames, hs.apart⟩

/-! ## Runs -/

/-- The ways in which the host begins a run. The upvalues it hands over are cells
that are there, and it may do so with one cell any number of times. -/
inductive Machine.Begins (host : Host) (m : Machine) : Status → Prop
  | prototype (proto : Prototype) (upvalues : List CellRef) (args : List Value)
      (fileUpvalues : Nat) : (∀ x ∈ upvalues, x < m.heap.cells.size) →
      Begins host m (m.callPrototype proto upvalues args fileUpvalues)
  | value (callee : Value) (args : List Value) : Begins host m (m.callValue host callee args)
  | chunk (chunk : Chunk) (env : Value) : Begins host m (m.callChunk chunk env)

/-- A state that a run can come to. -/
def Running.Reached (host : Host) (r : Running) : Prop :=
  ∃ (m : Machine) (s : Status) (steps : Nat),
    m.heap.Sound ∧ m.Begins host s ∧ s.run host steps = .running r

theorem Machine.callPrototype_isolated {m : Machine} (hheap : m.heap.Sound)
    {upvalues : List CellRef} (hupvalues : ∀ x ∈ upvalues, x < m.heap.cells.size)
    (proto : Prototype) (args : List Value) (fileUpvalues : Nat) :
    (m.callPrototype proto upvalues args fileUpvalues).snapshot.Isolated := by
  unfold callPrototype
  rcases Nat.lt_or_ge m.depth m.limits.depth with hroom | hfull
  · rw [enter_room hroom]
    exact hheap.idle.enter hupvalues proto args fileUpvalues
  · rw [enter_full hfull]
    exact hheap.idle

theorem Machine.Begins.isolated {host : Host} {m : Machine} (hheap : m.heap.Sound) {s : Status}
    (hs : m.Begins host s) : s.snapshot.Isolated := by
  cases hs with
  | prototype proto upvalues args fileUpvalues hupvalues =>
      exact callPrototype_isolated hheap hupvalues proto args fileUpvalues
  | value callee args =>
      exact stable_callValue Snapshot.isolated_stable host hheap.idle callee args 0
  | chunk chunk env =>
      have hsize : (m.heap.newCells [env]).2.cells.size = m.heap.cells.size + 1 := by
        simp [Heap.newCells]
      have hsound : (m.heap.newCells [env]).2.Sound :=
        hheap.of_extends (hsize ▸ Nat.le_succ _) rfl
      have henv : ∀ x ∈ (m.heap.newCells [env]).1, x < (m.heap.newCells [env]).2.cells.size := by
        intro x hx
        rw [List.mem_singleton.mp hx, hsize]
        exact Nat.lt_succ_self _
      exact callPrototype_isolated (m := m.withHeap (m.heap.newCells [env]).2) hsound henv _ _ _

theorem Running.Reached.step {host : Host} {r r' : Running} (h : r.Reached host)
    (hstep : r.step host = .running r') : r'.Reached host := by
  obtain ⟨m, s, steps, hheap, hs, hrun⟩ := h
  exact ⟨m, s, steps + 1, hheap, hs, (Status.run_succ hrun).trans hstep⟩

theorem Running.Reached.lives {host : Host} {level : Nat} {allowed : Running → Prop}
    {r r' : Running} (h : r.Reached host) (hlives : r.Lives host level allowed r') :
    r'.Reached host := by
  induction hlives with
  | refl _ => exact h
  | step _ _ hstep _ ih => exact ih.step hstep

theorem Running.Reached.isolated {host : Host} {r : Running} (h : r.Reached host) :
    r.snapshot.Isolated := by
  obtain ⟨m, s, steps, hheap, hs, hrun⟩ := h
  have hafter := Snapshot.isolated_stable.run host (hs.isolated hheap) steps
  rwa [hrun] at hafter

/-- Activations at different levels have no register in common. -/
theorem Snapshot.Isolated.apart_levels {s : Snapshot} (hs : s.Isolated) {level level' : Nat}
    {f g : Frame} (hne : level' ≠ level) (hf : s.activation? level = some f)
    (hg : s.activation? level' = some g) : f.registers.Disjoint g.registers := by
  obtain ⟨hlt, rfl⟩ := List.getElem?_eq_some_iff.mp hf
  obtain ⟨hlt', rfl⟩ := List.getElem?_eq_some_iff.mp hg
  have hapart := List.pairwise_iff_getElem.mp (List.pairwise_reverse.mpr hs.apart)
  rcases Nat.lt_or_gt_of_ne hne with hbelow | habove
  · exact hapart level' level hlt' hlt hbelow
  · exact (hapart level level' hlt hlt' habove).symm

theorem Snapshot.mem_of_activation? {s : Snapshot} {level : Nat} {f : Frame}
    (hf : s.activation? level = some f) : f ∈ s.frames :=
  List.mem_reverse.mp (List.mem_of_getElem? hf)

/-! ## Writing one register -/

/-- A write to a cell shows in no other. -/
theorem Heap.map_cell_setCell_of_ne (h : Heap) {place : Option CellRef} {x : CellRef}
    (hne : place ≠ some x) (v : Value) : place.map (h.setCell x v).cell = place.map h.cell := by
  cases place with
  | none => rfl
  | some y =>
      have hxy : y ≠ x := by
        rintro rfl
        exact hne rfl
      rw [Option.map_some, Option.map_some, cell_setCell_of_ne h hxy]

namespace Frame

variable {f : Frame} {h : Heap} {x : CellRef}

theorem register?_setCell_of_ne {q : Nat} (hne : f.registers[q]? ≠ some x) (v : Value) :
    f.register? (h.setCell x v) q = f.register? h q :=
  h.map_cell_setCell_of_ne hne v

theorem register?_setCell_self {q : Nat} (hq : f.registers[q]? = some x)
    (hlt : x < h.cells.size) (v : Value) : f.register? (h.setCell x v) q = some v := by
  rw [register?, hq, Option.map_some, Heap.cell_setCell_self hlt]

theorem upvalue?_setCell_of_notMem (hx : x ∉ f.upvalues) (v : Value) (j : Nat) :
    f.upvalue? (h.setCell x v) j = f.upvalue? h j :=
  h.map_cell_setCell_of_ne (fun hj => hx (List.mem_of_getElem? hj)) v

end Frame

/-- **Registers are isolated.** In every state of every run, however it begins and
whatever it calls, each live activation has as many registers as its prototype
says; they are distinct cells, none of them an upvalue of the activation or a
register of another live activation. So a write to a register of an activation
changes no other register, of this activation or of another, and none of its
upvalues. What a run leaves behind is fit for the next one. -/
theorem Machine.registers_isolated {host : Host} {m : Machine} (hheap : m.heap.Sound) {s : Status}
    (hs : m.Begins host s) (steps : Nat) :
    (s.run host steps).machine.heap.Sound ∧
    ∀ (r : Running) (level : Nat) (f : Frame), s.run host steps = .running r →
      r.activation? level = some f →
      f.registers.length = f.proto.stackSize.toNat ∧
      f.registers.Nodup ∧
      f.registers.Disjoint f.upvalues ∧
      (∀ level' g, level' ≠ level → r.activation? level' = some g →
        f.registers.Disjoint g.registers) ∧
      ∀ q < f.proto.stackSize.toNat, ∀ v, ∃ h',
        Exec.setReg q v ⟨f, r.machine.heap⟩ = .ok () ⟨f, h'⟩ ∧
        f.register? h' q = some v ∧
        (∀ p, p ≠ q → f.register? h' p = f.register? r.machine.heap p) ∧
        (∀ j, f.upvalue? h' j = f.upvalue? r.machine.heap j) ∧
        ∀ level' g, level' ≠ level → r.activation? level' = some g →
          ∀ p, g.register? h' p = g.register? r.machine.heap p := by
  have hafter : (s.run host steps).snapshot.Isolated :=
    Snapshot.isolated_stable.run host (hs.isolated hheap) steps
  refine ⟨?_, ?_⟩
  · rw [← Status.heap_snapshot]
    exact hafter.sound
  · intro r level f hrun hf
    rw [hrun] at hafter
    have hisolated : f.Isolated r.machine.heap.cells.size :=
      hafter.frames f (Snapshot.mem_of_activation? hf)
    refine ⟨hisolated.length, hisolated.nodup, hisolated.upvalues, ?_, ?_⟩
    · intro level' g hne hg
      exact hafter.apart_levels hne hf hg
    · intro q hq v
      obtain ⟨x, hx⟩ : ∃ x, f.registers[q]? = some x :=
        ⟨_, List.getElem?_eq_getElem (hisolated.length ▸ hq)⟩
      have hmem : x ∈ f.registers := List.mem_of_getElem? hx
      refine ⟨r.machine.heap.setCell x v, Exec.setReg_ok hx v, ?_, ?_, ?_, ?_⟩
      · exact Frame.register?_setCell_self hx (hisolated.lt x (Or.inl hmem)) v
      · intro p hp
        refine Frame.register?_setCell_of_ne ?_ v
        intro hpx
        have hlt : p < f.registers.length := (List.getElem?_eq_some_iff.mp hpx).1
        exact hp ((List.getElem?_inj hlt hisolated.nodup).mp (hpx.trans hx.symm))
      · exact Frame.upvalue?_setCell_of_notMem (fun hupvalue => hisolated.upvalues hmem hupvalue) v
      · intro level' g hne hg p
        refine Frame.register?_setCell_of_ne ?_ v
        intro hpx
        exact hafter.apart_levels hne hf hg hmem (List.mem_of_getElem? hpx)

/-- A function with a variable in R[0] that a closure in R[1] shares and counts up
by one. It calls the closure for two results, of which there is one only. -/
def Prototype.counter : Prototype where
  stackSize := 4
  code := #[.ofAsBx .loadI 0 5, .ofABx .closure 1 0, .ofABC .move 2 1 0 false,
    .ofABC .call 2 1 2 false, .ofABC .close 0 0 0 false, .ofABC .ret 0 0 0 false]
  protos :=
    [{ code := #[.ofABC .getUpvalue 0 0 0 false, .ofABC .addI 0 0 1 false,
         .ofABC .setUpvalue 0 0 0 false, .ofABC .ret1 0 0 0 false]
       upvalues := [⟨true, 0, 0⟩] }]

/-- The run of `Prototype.counter` after some steps. -/
def Prototype.counterAfter (steps : Nat) : Status :=
  (Machine.callPrototype {} .counter [] [] 0).run (Host.library Value.text) steps

/-- While the closure runs, R[0] is an upvalue of its activation and yet no
register of it. -/
theorem Machine.registers_isolated_counter :
    ∃ r f g, Prototype.counterAfter 4 = .running r ∧
      r.activation? 0 = some f ∧ r.activation? 1 = some g ∧
      f.registers.length = 4 ∧ f.registers[0]? = g.upvalues[0]? ∧
      f.registers.Disjoint g.registers ∧ g.registers.Disjoint g.upvalues := by
  have hbegins : Begins (Host.library Value.text) {} (callPrototype {} .counter [] [] 0) :=
    .prototype _ _ _ _ nofun
  obtain ⟨-, hisolated⟩ := registers_isolated Heap.sound_empty hbegins 4
  obtain ⟨r, hrun, hcaller, hcallee⟩ :
      ∃ r, Prototype.counterAfter 4 = .running r ∧
        (r.activation? 0).map (fun f => (f.registers[0]?, f.proto.stackSize)) = some (some 0, 4) ∧
        (r.activation? 1).map (fun g => g.upvalues[0]?) = some (some 0) :=
    Status.exists_running (by decide +kernel)
  obtain ⟨f, hf, hshape⟩ := Option.map_eq_some_iff.mp hcaller
  obtain ⟨g, hg, hupvalue⟩ := Option.map_eq_some_iff.mp hcallee
  obtain ⟨hregister, hsize⟩ := Prod.mk.inj hshape
  obtain ⟨hlength, -, -, hapart, -⟩ := hisolated r 0 f hrun hf
  obtain ⟨-, -, hupvalues, -, -⟩ := hisolated r 1 g hrun hg
  rw [hsize] at hlength
  exact ⟨r, f, g, hrun, hf, hg, hlength, hregister.trans hupvalue.symm,
    hapart 1 g (by decide) hg, hupvalues⟩

end LuaBytecode
