import Mathlib
import LuaBytecode.Proofs.Machine

/-! # What an instruction can change

An instruction works on one activation and the heap. Apart from `Close`, which
gives registers new cells, it makes no cells; of the cells there are it can
write those that the activation holds, and the closures it makes capture no
others. None of this depends on where the instruction stops: a fault leaves
behind no more than a success could have done.
-/

namespace LuaBytecode

/-! ## Heaps -/

namespace Heap

@[simp]
theorem size_setCell (h : Heap) (ref : CellRef) (v : Value) :
    (h.setCell ref v).cells.size = h.cells.size := by
  simp [setCell]

theorem cell_setCell_self {h : Heap} {ref : CellRef} (hlt : ref < h.cells.size) (v : Value) :
    (h.setCell ref v).cell ref = v := by
  simp [cell, setCell, Array.getD_eq_getD_getElem?, hlt]

theorem cell_setCell_of_ne (h : Heap) {ref x : CellRef} (hne : x ≠ ref) (v : Value) :
    (h.setCell ref v).cell x = h.cell x := by
  simp [cell, setCell, Array.getD_eq_getD_getElem?, Array.getElem?_setIfInBounds_ne hne.symm]

theorem cell_newCells_of_lt {h : Heap} {x : CellRef} (hlt : x < h.cells.size)
    (values : List Value) : (h.newCells values).2.cell x = h.cell x := by
  simp [cell, newCells, Array.getD_eq_getD_getElem?, Array.getElem?_append_left hlt]

theorem table_newTable_of_lt {h : Heap} {ref : TableRef} (hlt : ref < h.tables.size) (t : Table) :
    (h.newTable t).2.table ref = h.table ref := by
  simp [table, newTable, Array.getD_eq_getD_getElem?, Array.getElem?_push_lt hlt, hlt]

theorem closure_of_size_le {h : Heap} {ref : ClosureRef} (hle : h.closures.size ≤ ref) :
    h.closure ref = default := by
  simp [closure, Array.getD_eq_getD_getElem?, Array.getElem?_eq_none hle]

end Heap

/-! ## Changes to an activation and the heap -/

/-- The cells that an activation can read and write. -/
def Frame.Holds (f : Frame) (x : CellRef) : Prop := x ∈ f.registers ∨ x ∈ f.upvalues

/-- The value of a register. -/
def Frame.register? (f : Frame) (h : Heap) (r : Nat) : Option Value := f.registers[r]?.map h.cell

/-- The value of an upvalue. -/
def Frame.upvalue? (f : Frame) (h : Heap) (i : Nat) : Option Value := f.upvalues[i]?.map h.cell

/-- How much of what there is an action may change. Whatever the extent, it may
make new tables and closures. -/
inductive Extent where
  | nothing
  | registers
  | everything
  deriving DecidableEq

namespace Extent

/-- The cells that may be written. -/
def Cell (e : Extent) (f : Frame) (x : CellRef) : Prop :=
  match e with
  | .nothing => False
  | .registers => x ∈ f.registers
  | .everything => f.Holds x

/-- Whether tables may be written. -/
def Tables : Extent → Prop
  | .everything => True
  | _ => False

theorem cell_of_mem {e : Extent} (he : e ≠ .nothing) {f : Frame} {x : CellRef}
    (hx : x ∈ f.registers) : e.Cell f x := by
  cases e with
  | nothing => exact absurd rfl he
  | registers => exact hx
  | everything => exact Or.inl hx

end Extent

/-- The second state comes from the first by changes within an extent. The place
in the code can be any. -/
structure Scope.Changes (e : Extent) (s s' : Scope) : Prop where
  frame : s'.frame = { s.frame with pc := s'.frame.pc }
  cells : s'.heap.cells.size = s.heap.cells.size
  cell : ∀ x, ¬ e.Cell s.frame x → s'.heap.cell x = s.heap.cell x
  tables : s.heap.tables.size ≤ s'.heap.tables.size
  table : ¬ e.Tables → ∀ ref < s.heap.tables.size, s'.heap.table ref = s.heap.table ref
  closures : s.heap.closures.size ≤ s'.heap.closures.size
  closure : ∀ ref < s.heap.closures.size, s'.heap.closure ref = s.heap.closure ref
  /-- New closures capture cells of the activation only. -/
  captured : ∀ ref, s.heap.closures.size ≤ ref → ∀ x ∈ (s'.heap.closure ref).upvalues,
    s.frame.Holds x

namespace Scope.Changes

variable {e : Extent} {s s' s'' : Scope}

theorem registers_eq (h : s.Changes e s') : s'.frame.registers = s.frame.registers := by
  rw [h.frame]

theorem upvalues_eq (h : s.Changes e s') : s'.frame.upvalues = s.frame.upvalues := by
  rw [h.frame]

theorem proto_eq (h : s.Changes e s') : s'.frame.proto = s.frame.proto := by
  rw [h.frame]

theorem holds_iff (h : s.Changes e s') (x : CellRef) : s'.frame.Holds x ↔ s.frame.Holds x := by
  rw [Frame.Holds, h.registers_eq, h.upvalues_eq, Frame.Holds]

theorem cell_iff (h : s.Changes e s') (x : CellRef) : e.Cell s'.frame x ↔ e.Cell s.frame x := by
  cases e with
  | nothing => exact Iff.rfl
  | registers => exact (congrArg (x ∈ ·) h.registers_eq).to_iff
  | everything => exact h.holds_iff x

/-- Where there is no closure, nothing is captured. -/
theorem not_captured {h : Heap} {ref : ClosureRef} (hle : h.closures.size ≤ ref) (x : CellRef) :
    x ∉ (h.closure ref).upvalues := by
  rw [Heap.closure_of_size_le hle]
  exact List.not_mem_nil

theorem refl (e : Extent) (s : Scope) : s.Changes e s where
  frame := rfl
  cells := rfl
  cell _ _ := rfl
  tables := Nat.le_refl _
  table _ _ _ := rfl
  closures := Nat.le_refl _
  closure _ _ := rfl
  captured _ hle x hx := absurd hx (not_captured hle x)

theorem trans (h : s.Changes e s') (h' : s'.Changes e s'') : s.Changes e s'' where
  frame := by rw [h'.frame, h.frame]
  cells := h'.cells.trans h.cells
  cell := by
    intro x hx
    rw [h'.cell x (fun hcell => hx ((h.cell_iff x).mp hcell)), h.cell x hx]
  tables := h.tables.trans h'.tables
  table := by
    intro htables ref hlt
    rw [h'.table htables ref (hlt.trans_le h.tables), h.table htables ref hlt]
  closures := h.closures.trans h'.closures
  closure := by
    intro ref hlt
    rw [h'.closure ref (hlt.trans_le h.closures), h.closure ref hlt]
  captured := by
    intro ref hle x hx
    -- the closure was made in the first part or in the second
    rcases Nat.lt_or_ge ref s'.heap.closures.size with hlt | hge
    · rw [h'.closure ref hlt] at hx
      exact h.captured ref hle x hx
    · exact (h.holds_iff x).mp (h'.captured ref hge x hx)

/-- What changes nothing stays within any extent. -/
theorem of_nothing (h : s.Changes .nothing s') (e : Extent) : s.Changes e s' :=
  { h with
    cell := fun x _ => h.cell x id
    table := fun _ => h.table id }

theorem setPc (e : Extent) (s : Scope) (pc : Nat) :
    s.Changes e ⟨{ s.frame with pc }, s.heap⟩ :=
  { refl e s with frame := rfl }

theorem setCell {ref : CellRef} (href : e.Cell s.frame ref) (v : Value) :
    s.Changes e ⟨s.frame, s.heap.setCell ref v⟩ :=
  { refl e s with
    cells := Heap.size_setCell _ _ _
    cell := by
      intro x hx
      refine Heap.cell_setCell_of_ne _ ?_ v
      rintro rfl
      exact hx href }

theorem setTable (he : e.Tables) (ref : TableRef) (t : Table) :
    s.Changes e ⟨s.frame, s.heap.setTable ref t⟩ :=
  { refl e s with
    tables := by simp [Heap.setTable]
    table := fun htables => absurd he htables }

theorem newTable (e : Extent) (s : Scope) (t : Table) :
    s.Changes e ⟨s.frame, (s.heap.newTable t).2⟩ :=
  { refl e s with
    tables := by simp [Heap.newTable]
    table := fun _ _ hlt => Heap.table_newTable_of_lt hlt t }

theorem newClosure {c : Closure} (hc : ∀ x ∈ c.upvalues, s.frame.Holds x) :
    s.Changes e ⟨s.frame, (s.heap.newClosure c).2⟩ :=
  { refl e s with
    closures := by simp [Heap.newClosure]
    closure := by
      intro ref hlt
      rw [Heap.closure_newClosure, if_neg hlt.ne]
    captured := by
      intro ref hle x hx
      rw [Heap.closure_newClosure] at hx
      split at hx
      · exact hc x hx
      · exact absurd hx (not_captured hle x) }

end Scope.Changes

/-- The cell of an activation that an upvalue of a new closure stands for. -/
def UpvalueSource.cell? (u : UpvalueSource) (f : Frame) : Option CellRef :=
  if u.inStack then f.registers[u.index.toNat]? else f.upvalues[u.index.toNat]?

theorem UpvalueSource.holds_of_cell? {u : UpvalueSource} {f : Frame} {x : CellRef}
    (h : u.cell? f = some x) : f.Holds x := by
  unfold cell? at h
  split at h
  · exact Or.inl (List.mem_of_getElem? h)
  · exact Or.inr (List.mem_of_getElem? h)

/-! ## Actions within an extent -/

namespace Exec

variable {α β : Type} {e : Extent}

/-- The state that an action ends in, whether it succeeds or not. -/
def after (x : Exec α) (s : Scope) : Scope :=
  match x s with
  | .ok _ s' => s'
  | .error _ s' => s'

theorem after_ok {x : Exec α} {s s' : Scope} {a : α} (h : x s = .ok a s') : x.after s = s' := by
  rw [after, h]

theorem after_error {x : Exec α} {s s' : Scope} {fault : Fault} (h : x s = .error fault s') :
    x.after s = s' := by
  rw [after, h]

theorem bind_ok {x : Exec α} {f : α → Exec β} {s s' : Scope} {a : α} (h : x s = .ok a s') :
    (x >>= f) s = f a s' := by
  show EStateM.bind x f s = f a s'
  rw [EStateM.bind, h]

theorem bind_error {x : Exec α} {f : α → Exec β} {s s' : Scope} {fault : Fault}
    (h : x s = .error fault s') : (x >>= f) s = .error fault s' := by
  show EStateM.bind x f s = .error fault s'
  rw [EStateM.bind, h]

/-- The action changes nothing beyond the extent. -/
def Confined (e : Extent) (x : Exec α) : Prop := ∀ s : Scope, s.Changes e (x.after s)

theorem confined_of_ok {x : Exec α} (hx : Confined e x) {s s' : Scope} {a : α}
    (h : x s = .ok a s') : s.Changes e s' := by
  rw [← after_ok h]
  exact hx s

theorem confined_of_error {x : Exec α} (hx : Confined e x) {s s' : Scope} {fault : Fault}
    (h : x s = .error fault s') : s.Changes e s' := by
  rw [← after_error h]
  exact hx s

@[simp]
theorem confined_pure (a : α) : Confined e (pure a : Exec α) := fun s => .refl e s

@[simp]
theorem confined_throw (fault : Fault) : Confined e (throw fault : Exec α) := fun s => .refl e s

@[simp]
theorem confined_bind {x : Exec α} {f : α → Exec β} (hx : Confined e x)
    (hf : ∀ a, Confined e (f a)) : Confined e (x >>= f) := by
  intro s
  cases h : x s with
  | ok a s' =>
      have hafter : (x >>= f).after s = (f a).after s' := by rw [after, after, bind_ok h]
      rw [hafter]
      exact (confined_of_ok hx h).trans (hf a s')
  | error fault s' =>
      rw [after_error (bind_error h)]
      exact confined_of_error hx h

@[simp]
theorem confined_map {x : Exec α} (f : α → β) (hx : Confined e x) : Confined e (f <$> x) :=
  confined_bind hx fun a => confined_pure (f a)

@[simp]
theorem confined_ite {c : Prop} [Decidable c] {x y : Exec α} (hx : Confined e x)
    (hy : Confined e y) : Confined e (if c then x else y) := by
  split
  · exact hx
  · exact hy

/-! ### Reading

What only reads leaves the state as it is, within any extent. -/

theorem lookup_some {what : Indexed} {xs : List α} {i : Nat} {a : α} (h : xs[i]? = some a)
    (s : Scope) : lookup what xs i s = .ok a s := by
  rw [lookup, h]

theorem lookup_none {what : Indexed} {xs : List α} {i : Nat} (h : xs[i]? = none) (s : Scope) :
    lookup what xs i s = .error (.outOfRange what i xs.length) s := by
  rw [lookup, h]

@[simp]
theorem confined_lookup (what : Indexed) (xs : List α) (i : Nat) :
    Confined e (lookup what xs i) := by
  intro s
  cases h : xs[i]? with
  | some a =>
      rw [after_ok (lookup_some h s)]
      exact .refl e s
  | none =>
      rw [after_error (lookup_none h s)]
      exact .refl e s

@[simp]
theorem confined_cell (r : Nat) : Confined e (cell r) := fun s => confined_lookup _ _ _ s

@[simp]
theorem confined_upvalueCell (i : Nat) : Confined e (upvalueCell i) :=
  fun s => confined_lookup _ _ _ s

@[simp]
theorem confined_readCell (ref : CellRef) : Confined e (readCell ref) := fun s => .refl e s

@[simp]
theorem confined_readTable (ref : TableRef) : Confined e (readTable ref) := fun s => .refl e s

@[simp]
theorem confined_reg (r : Nat) : Confined e (reg r) :=
  confined_bind (confined_cell r) confined_readCell

@[simp]
theorem confined_upvalue (i : Nat) : Confined e (upvalue i) :=
  confined_bind (confined_upvalueCell i) confined_readCell

@[simp]
theorem confined_regs (first count : Nat) : Confined e (regs first count) := by
  induction count generalizing first with
  | zero => exact confined_pure []
  | succ count ih => simp [regs, ih]

@[simp]
theorem confined_constant (i : Nat) : Confined e (constant i) := by
  intro s
  cases h : s.frame.proto.constants[i]? with
  | some k =>
      have hok : constant i s = .ok (.ofConstant k) s := by rw [constant, h]
      rw [after_ok hok]
      exact .refl e s
  | none =>
      have herror : constant i s
          = .error (.outOfRange .constant i s.frame.proto.constants.size) s := by
        rw [constant, h]
      rw [after_error herror]
      exact .refl e s

@[simp]
theorem confined_tableOf (action : Action) (v : Value) : Confined e (tableOf action v) := by
  intro s
  cases v <;> exact .refl e s

@[simp]
theorem confined_ofExcept (x : Except Fault α) : Confined e (ofExcept x) := by
  intro s
  cases x <;> exact .refl e s

theorem reg_some {s : Scope} {r : Nat} {v : Value} (h : s.frame.register? s.heap r = some v) :
    reg r s = .ok v s := by
  obtain ⟨ref, href, rfl⟩ := Option.map_eq_some_iff.mp h
  exact bind_ok (lookup_some href s)

theorem reg_none {s : Scope} {r : Nat} (h : s.frame.register? s.heap r = none) :
    reg r s = .error (.outOfRange .register r s.frame.registers.length) s :=
  bind_error (lookup_none (Option.map_eq_none_iff.mp h) s)

theorem upvalueCell_some {s : Scope} {n : Nat} {ref : CellRef}
    (h : s.frame.upvalues[n]? = some ref) : upvalueCell n s = .ok ref s :=
  lookup_some h s

theorem upvalueCell_none {s : Scope} {n : Nat} (h : s.frame.upvalues[n]? = none) :
    upvalueCell n s = .error (.outOfRange .upvalue n s.frame.upvalues.length) s :=
  lookup_none h s

theorem constant_some {s : Scope} {n : Nat} {k : Constant}
    (h : s.frame.proto.constants[n]? = some k) : constant n s = .ok (.ofConstant k) s := by
  rw [constant, h]

theorem constant_none {s : Scope} {n : Nat} (h : s.frame.proto.constants[n]? = none) :
    constant n s = .error (.outOfRange .constant n s.frame.proto.constants.size) s := by
  rw [constant, h]

/-! ### Moving in the code -/

theorem jump_ok {s : Scope} {distance : Int} {target : Nat}
    (h : (s.frame.pc : Int) + distance = target) :
    jump distance s = .ok () ⟨{ s.frame with pc := target }, s.heap⟩ := by
  have hok : ¬ (s.frame.pc : Int) + distance < 0 := by omega
  rw [jump, if_neg hok, h, Int.toNat_natCast]

theorem jump_error {s : Scope} {distance : Int} (h : (s.frame.pc : Int) + distance < 0) :
    jump distance s
      = .error (.outOfRange .jumpTarget (s.frame.pc + distance) s.frame.proto.code.size) s :=
  if_pos h

@[simp]
theorem confined_skip : Confined e skip := fun s => .setPc e s _

@[simp]
theorem confined_jump (distance : Int) : Confined e (jump distance) := by
  intro s
  by_cases h : (s.frame.pc : Int) + distance < 0
  · rw [after_error (jump_error h)]
    exact .refl e s
  · have hok : jump distance s = .ok () _ := if_neg h
    rw [after_ok hok]
    exact .setPc e s _

@[simp]
theorem confined_extraArg : Confined e extraArg := by
  intro s
  cases h : s.frame.proto.code[s.frame.pc]? with
  | some word =>
      have hok : extraArg s = .ok word.ax ⟨{ s.frame with pc := s.frame.pc + 1 }, s.heap⟩ := by
        rw [extraArg, h]
      rw [after_ok hok]
      exact .setPc e s _
  | none =>
      have herror : extraArg s
          = .error (.outOfRange .extraArgument s.frame.pc s.frame.proto.code.size) s := by
        rw [extraArg, h]
      rw [after_error herror]
      exact .refl e s

/-! ### Writing -/

theorem setReg_ok {s : Scope} {r : Nat} {ref : CellRef} (h : s.frame.registers[r]? = some ref)
    (v : Value) : setReg r v s = .ok () ⟨s.frame, s.heap.setCell ref v⟩ :=
  bind_ok (lookup_some h s)

theorem setReg_error {s : Scope} {r : Nat} (h : s.frame.registers[r]? = none) (v : Value) :
    setReg r v s = .error (.outOfRange .register r s.frame.registers.length) s :=
  bind_error (lookup_none h s)

@[simp]
theorem confined_setReg (he : e ≠ .nothing) (r : Nat) (v : Value) : Confined e (setReg r v) := by
  intro s
  cases h : s.frame.registers[r]? with
  | some ref =>
      rw [after_ok (setReg_ok h v)]
      exact .setCell (Extent.cell_of_mem he (List.mem_of_getElem? h)) v
  | none =>
      rw [after_error (setReg_error h v)]
      exact .refl e s

@[simp]
theorem confined_setRegs (he : e ≠ .nothing) (first : Nat) (values : List Value) :
    Confined e (setRegs first values) := by
  induction values generalizing first with
  | nil => exact confined_pure ()
  | cons v rest ih => simp [setRegs, he, ih]

@[simp]
theorem confined_newTable (t : Table) : Confined e (newTable t) := fun s => .newTable e s t

@[simp]
theorem confined_writeTable (ref : TableRef) (t : Table) :
    Confined .everything (writeTable ref t) :=
  fun _ => Scope.Changes.setTable (e := .everything) trivial ref t

@[simp]
theorem confined_setUpvalue (a b : Nat) : Confined .everything (Exec.setUpvalue a b) := by
  refine confined_bind (confined_reg a) fun v => ?_
  intro s
  cases h : s.frame.upvalues[b]? with
  | some ref =>
      have hok : (upvalueCell b >>= fun ref => writeCell ref v >>= fun _ => pure Next.proceed) s
          = .ok .proceed ⟨s.frame, s.heap.setCell ref v⟩ := bind_ok (lookup_some h s)
      rw [after_ok hok]
      exact Scope.Changes.setCell (e := .everything) (Or.inr (List.mem_of_getElem? h)) v
  | none =>
      have herror : (upvalueCell b >>= fun ref => writeCell ref v >>= fun _ => pure Next.proceed) s
          = .error (.outOfRange .upvalue b s.frame.upvalues.length) s :=
        bind_error (lookup_none h s)
      rw [after_error herror]
      exact .refl _ s

/-! ### Closures -/

theorem capture_some {u : UpvalueSource} {s : Scope} {x : CellRef}
    (h : u.cell? s.frame = some x) : capture u s = .ok x s := by
  cases hstack : u.inStack with
  | true =>
      rw [UpvalueSource.cell?, hstack] at h
      rw [capture, hstack]
      exact lookup_some h s
  | false =>
      rw [UpvalueSource.cell?, hstack] at h
      rw [capture, hstack]
      exact lookup_some h s

theorem capture_none {u : UpvalueSource} {s : Scope} (h : u.cell? s.frame = none) :
    ∃ fault, capture u s = .error fault s := by
  cases hstack : u.inStack with
  | true =>
      rw [UpvalueSource.cell?, hstack] at h
      rw [capture, hstack]
      exact ⟨_, lookup_none h s⟩
  | false =>
      rw [UpvalueSource.cell?, hstack] at h
      rw [capture, hstack]
      exact ⟨_, lookup_none h s⟩

@[simp]
theorem confined_captureAll (us : List UpvalueSource) : Confined e (captureAll us) := by
  induction us with
  | nil => exact confined_pure []
  | cons u rest ih => simp [captureAll, capture, ih]

/-- A closure captures, for each of its upvalues, the cell at the place it comes from. -/
theorem captureAll_ok {us : List UpvalueSource} {s s' : Scope} {refs : List CellRef}
    (h : captureAll us s = .ok refs s') :
    s' = s ∧ us.map (fun u => u.cell? s.frame) = refs.map some := by
  induction us generalizing refs s' with
  | nil =>
      cases h
      exact ⟨rfl, rfl⟩
  | cons u rest ih =>
      cases hu : u.cell? s.frame with
      | none =>
          obtain ⟨fault, hfault⟩ := capture_none hu
          rw [captureAll, bind_error hfault] at h
          cases h
      | some x =>
          rw [captureAll, bind_ok (capture_some hu)] at h
          cases hrest : captureAll rest s with
          | error fault s'' =>
              rw [bind_error hrest] at h
              cases h
          | ok refs' s'' =>
              rw [bind_ok hrest] at h
              obtain ⟨rfl, hrefs⟩ := ih hrest
              cases h
              exact ⟨rfl, by rw [List.map_cons, List.map_cons, hu, hrefs]⟩

theorem captureAll_holds {us : List UpvalueSource} {s s' : Scope} {refs : List CellRef}
    (h : captureAll us s = .ok refs s') : ∀ x ∈ refs, s.frame.Holds x := by
  intro x hx
  obtain ⟨-, hmap⟩ := captureAll_ok h
  have hmem : some x ∈ us.map (fun u => u.cell? s.frame) := by
    rw [hmap]
    exact List.mem_map_of_mem hx
  obtain ⟨u, -, hu⟩ := List.mem_map.mp hmem
  exact UpvalueSource.holds_of_cell? hu

@[simp]
theorem confined_createClosure (bx : Nat) : Confined e (createClosure bx) := by
  intro s
  cases hchild : s.frame.proto.protos[bx]? with
  | none =>
      rw [after_error (createClosure_none hchild)]
      exact .refl e s
  | some child =>
      have hcreate := createClosure_some hchild
      cases hall : captureAll child.upvalues s with
      | error fault s' =>
          rw [after_error (hcreate.trans (bind_error hall))]
          exact confined_of_error (confined_captureAll _) hall
      | ok upvalues s' =>
          obtain ⟨rfl, -⟩ := captureAll_ok hall
          rw [after_ok (hcreate.trans (bind_ok hall))]
          exact .newClosure (captureAll_holds hall)

/-! ### Instructions -/

@[simp]
theorem confined_assign (he : e ≠ .nothing) (a : Nat) {x : Exec Value} (hx : Confined e x) :
    Confined e (assign a x) := by
  refine confined_bind hx fun v => ?_
  simp [he]

@[simp]
theorem confined_registerOrConstant (i : Instruction) : Confined e (registerOrConstant i) := by
  simp [registerOrConstant]

@[simp]
theorem confined_binary (op : ArithOp) {x y : Exec Value} (hx : Confined e x)
    (hy : Confined e y) : Confined e (binary op x y) := by
  simp [binary, hx, hy]

@[simp]
theorem confined_arithmetic (op : Opcode) {x y : Exec Value} (hx : Confined e x)
    (hy : Confined e y) : Confined e (arithmetic op x y) := by
  unfold arithmetic
  split
  · exact confined_binary _ hx hy
  · exact confined_throw _

@[simp]
theorem confined_upvalueField (i key : Nat) : Confined e (upvalueField i key) := by
  refine confined_bind (confined_upvalue i) fun source =>
    confined_bind (confined_tableOf _ _) fun ref =>
      confined_bind (confined_constant key) fun k => ?_
  simp

@[simp]
theorem confined_index (b c : Nat) : Confined e (index b c) := by
  refine confined_bind (confined_reg b) fun source =>
    confined_bind (confined_tableOf _ _) fun ref => confined_bind (confined_reg c) fun k =>
      confined_bind (confined_readTable ref) fun t => confined_ite ?_ (confined_pure _)
  split
  · exact confined_pure _
  · exact confined_pure _

@[simp]
theorem confined_lenientGet (source k : Value) : Confined e (lenientGet source k) := by
  unfold lenientGet
  split
  · simp
  · simp

@[simp]
theorem confined_self (he : e ≠ .nothing) (a b : Nat) {key : Exec Value}
    (hkey : Confined e key) : Confined e (Exec.self a b key) := by
  refine confined_bind (confined_reg b) fun receiver => confined_bind hkey fun k =>
    confined_bind (confined_setReg he _ _) fun _ => confined_ite (confined_throw _) ?_
  split
  · simp [he]
  · simp

@[simp]
theorem confined_length (v : Value) : Confined e (length v) := by
  unfold length
  split
  · simp
  · simp

@[simp]
theorem confined_setField (action : Action) (target k v : Value) :
    Confined .everything (setField action target k v) := by
  refine confined_bind (confined_tableOf _ _) fun ref =>
    confined_bind (confined_readTable ref) fun t => ?_
  split
  · simp
  · simp

@[simp]
theorem confined_setUpvalueField (a key : Nat) {value : Exec Value}
    (hvalue : Confined .everything value) :
    Confined .everything (setUpvalueField a key value) := by
  refine confined_bind (confined_upvalue a) fun target =>
    confined_bind (confined_constant key) fun k => ?_
  simp [hvalue]

@[simp]
theorem confined_setRegisterField (a : Nat) {key value : Exec Value}
    (hkey : Confined .everything key) (hvalue : Confined .everything value) :
    Confined .everything (setRegisterField a key value) := by
  refine confined_bind (confined_reg a) fun target => ?_
  simp [hkey, hvalue]

@[simp]
theorem confined_extendedC (i : Instruction) : Confined e (extendedC i) := by
  simp [extendedC]

@[simp]
theorem confined_setList (i : Instruction) : Confined .everything (Exec.setList i) := by
  refine confined_bind (confined_extendedC i) fun offset => confined_ite (confined_pure _) ?_
  refine confined_bind (confined_reg _) fun target =>
    confined_bind (confined_tableOf _ _) fun ref =>
      confined_bind (confined_regs _ _) fun values => ?_
  simp

@[simp]
theorem confined_skipUnless (expected : Bool) {outcome : Exec Bool}
    (houtcome : Confined e outcome) : Confined e (skipUnless expected outcome) := by
  refine confined_bind houtcome fun met => ?_
  simp

@[simp]
theorem confined_compareWith (a : Nat) {other : Exec Value} (test : Value → Value → Bool)
    (hother : Confined e other) : Confined e (compareWith a other test) := by
  simp [compareWith, hother]

@[simp]
theorem confined_compareImmediate (i : Instruction) (test : Option Ordering → Bool) :
    Confined e (compareImmediate i test) := by
  simp [compareImmediate]

@[simp]
theorem confined_testSet (he : e ≠ .nothing) (a b : Nat) (expected : Bool) :
    Confined e (Exec.testSet a b expected) := by
  refine confined_bind (confined_reg b) fun v => ?_
  simp [he]

@[simp]
theorem confined_jumpBy (distance : Int) : Confined e (jumpBy distance) := by
  simp [jumpBy]

theorem forPrep_eq {s : Scope} {a : Nat} {v : Value}
    (hv : s.frame.register? s.heap a = some v) (bx : Nat) :
    Exec.forPrep a bx s
      = (if v.number?.any Number.isPositive then pure .proceed else jumpBy (bx + 1)) s :=
  bind_ok (reg_some hv)

theorem forLoop_eq {s : Scope} {a : Nat} {x : CellRef} (hx : s.frame.registers[a]? = some x)
    (bx : Nat) :
    Exec.forLoop a bx s
      = (if (s.heap.cell x).numberOrZero.pred.isPositive then jumpBy (-bx) else pure .proceed)
          ⟨s.frame, s.heap.setCell x (s.heap.cell x).numberOrZero.pred.toValue⟩ := by
  have hv : s.frame.register? s.heap a = some (s.heap.cell x) := by
    rw [Frame.register?, hx, Option.map_some]
  rw [Exec.forLoop, bind_ok (reg_some hv)]
  exact bind_ok (setReg_ok hx _)

@[simp]
theorem confined_forPrep (a bx : Nat) : Confined e (Exec.forPrep a bx) := by
  simp [Exec.forPrep]

@[simp]
theorem confined_forLoop (he : e ≠ .nothing) (a bx : Nat) : Confined e (Exec.forLoop a bx) := by
  refine confined_bind (confined_reg a) fun v => ?_
  simp [he]

@[simp]
theorem confined_storeResults (he : e ≠ .nothing) (first wanted : Nat) (results : List Value) :
    Confined e (storeResults first wanted results) := by
  induction wanted generalizing first results with
  | zero => simp [storeResults]
  | succ wanted ih =>
      cases results with
      | nil =>
          refine confined_bind (confined_newTable _) fun v => ?_
          simp [he, ih]
      | cons v rest => simp [storeResults, he, ih]

@[simp]
theorem confined_newTables (count : Nat) : Confined e (newTables count) := by
  induction count with
  | zero => simp [newTables]
  | succ count ih => simp [newTables, ih]

@[simp]
theorem confined_call (he : e ≠ .nothing) (a b c : Nat) : Confined e (Exec.call a b c) := by
  refine confined_bind (confined_reg a) fun callee => confined_ite ?_ ?_
  · simp
  · simp [he]

@[simp]
theorem confined_tailCall (a b c : Nat) : Confined e (Exec.tailCall a b c) := by
  refine confined_bind (confined_reg a) fun callee => ?_
  simp

@[simp]
theorem confined_returnFrom (a b : Nat) : Confined e (returnFrom a b) :=
  fun s => confined_map _ (confined_regs a _) s

/-- No instruction but `Close` goes beyond its activation. -/
theorem confined_execute (i : Instruction) {op : Opcode} (hop : op ≠ .close) :
    Confined .everything (i.execute op) := by
  cases op
  case close => exact absurd rfl hop
  case getField =>
    refine confined_assign (by decide) _ (confined_bind (confined_reg _) fun source => ?_)
    simp
  all_goals simp [Instruction.execute, createTable, Exec.concat]

end Exec

end LuaBytecode
