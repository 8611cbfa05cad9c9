import Mathlib
import LuaBytecode.Proofs.Actions
import LuaBytecode.Proofs.Machine

/-! # Instructions of corresponding functions

A run looks at the code of a function, its constants, the numbers of its
parameters and registers, the places its upvalues come from, and its nested
functions. Functions that correspond in all this can stand for each other: an
instruction does the same in two states that are alike up to the functions
behind activations and closures.
-/

namespace LuaBytecode

/-- The place where a new closure finds an upvalue. -/
def UpvalueSource.place (u : UpvalueSource) : Bool × UInt8 := (u.inStack, u.index)

/-- A relation between functions that a run cannot tell apart. -/
structure Correspondence where
  rel : Prototype → Prototype → Prop
  code : ∀ {p q}, rel p q → p.code = q.code
  constants : ∀ {p q}, rel p q → p.constants = q.constants
  paramCount : ∀ {p q}, rel p q → p.paramCount = q.paramCount
  stackSize : ∀ {p q}, rel p q → p.stackSize = q.stackSize
  places : ∀ {p q}, rel p q →
    p.upvalues.map UpvalueSource.place = q.upvalues.map UpvalueSource.place
  protos_length : ∀ {p q}, rel p q → p.protos.length = q.protos.length
  protos_get : ∀ {p q p' : Prototype} {i : Nat}, rel p q → p.protos[i]? = some p' →
    ∃ q', q.protos[i]? = some q' ∧ rel p' q'

theorem Correspondence.upvalues_length (K : Correspondence) {p q : Prototype}
    (h : K.rel p q) : p.upvalues.length = q.upvalues.length := by
  have hlength := congrArg List.length (K.places h)
  rwa [List.length_map, List.length_map] at hlength

/-! ## States that are alike -/

/-- Closures over corresponding functions, with the same cells. -/
structure Closure.Alike (R : Prototype → Prototype → Prop) (c c' : Closure) : Prop where
  proto : R c.proto c'.proto
  upvalues : c.upvalues = c'.upvalues
  fileUpvalues : c.fileUpvalues = c'.fileUpvalues

/-- Heaps with the same cells and tables and with corresponding closures. -/
structure Heap.Alike (R : Prototype → Prototype → Prop) (h h' : Heap) : Prop where
  cells : h.cells = h'.cells
  tables : h.tables = h'.tables
  size : h.closures.size = h'.closures.size
  closures : ∀ ref, (h.closure ref).Alike R (h'.closure ref)

/-- Activations of corresponding functions at the same place, with the same cells. -/
structure Frame.Alike (R : Prototype → Prototype → Prop) (f f' : Frame) : Prop where
  proto : R f.proto f'.proto
  registers : f.registers = f'.registers
  upvalues : f.upvalues = f'.upvalues
  fileUpvalues : f.fileUpvalues = f'.fileUpvalues
  pc : f.pc = f'.pc

structure Scope.Alike (R : Prototype → Prototype → Prop) (s s' : Scope) : Prop where
  frame : s.frame.Alike R s'.frame
  heap : s.heap.Alike R s'.heap

namespace Heap.Alike

variable {R : Prototype → Prototype → Prop} {h h' : Heap}

theorem cell_eq (hh : h.Alike R h') (ref : CellRef) : h.cell ref = h'.cell ref := by
  rw [cell, cell, hh.cells]

theorem table_eq (hh : h.Alike R h') (ref : TableRef) : h.table ref = h'.table ref := by
  rw [table, table, hh.tables]

theorem setCell (hh : h.Alike R h') (ref : CellRef) (v : Value) :
    (h.setCell ref v).Alike R (h'.setCell ref v) where
  cells := by rw [Heap.setCell, Heap.setCell, hh.cells]
  tables := hh.tables
  size := hh.size
  closures := hh.closures

theorem setTable (hh : h.Alike R h') (ref : TableRef) (t : Table) :
    (h.setTable ref t).Alike R (h'.setTable ref t) where
  cells := hh.cells
  tables := by rw [Heap.setTable, Heap.setTable, hh.tables]
  size := hh.size
  closures := hh.closures

theorem newCells_refs (hh : h.Alike R h') (values : List Value) :
    (h.newCells values).1 = (h'.newCells values).1 := by
  rw [newCells, newCells, hh.cells]

theorem newCells (hh : h.Alike R h') (values : List Value) :
    (h.newCells values).2.Alike R (h'.newCells values).2 where
  cells := by rw [Heap.newCells, Heap.newCells, hh.cells]
  tables := hh.tables
  size := hh.size
  closures := hh.closures

theorem newTable_ref (hh : h.Alike R h') (t : Table) :
    (h.newTable t).1 = (h'.newTable t).1 := by
  rw [Heap.newTable, Heap.newTable, hh.tables]

theorem newTable (hh : h.Alike R h') (t : Table) :
    (h.newTable t).2.Alike R (h'.newTable t).2 where
  cells := hh.cells
  tables := by rw [Heap.newTable, Heap.newTable, hh.tables]
  size := hh.size
  closures := hh.closures

theorem newClosure_ref (hh : h.Alike R h') (c c' : Closure) :
    (h.newClosure c).1 = (h'.newClosure c').1 := hh.size

theorem newClosure (hh : h.Alike R h') {c c' : Closure} (hc : c.Alike R c') :
    (h.newClosure c).2.Alike R (h'.newClosure c').2 where
  cells := hh.cells
  tables := hh.tables
  size := by
    rw [Heap.newClosure, Heap.newClosure, Array.size_push, Array.size_push, hh.size]
  closures := by
    intro ref
    rw [closure_newClosure, closure_newClosure, ← hh.size]
    by_cases hnew : ref = h.closures.size
    · rw [if_pos hnew, if_pos hnew]
      exact hc
    · rw [if_neg hnew, if_neg hnew]
      exact hh.closures ref

end Heap.Alike

/-! ## Actions on states that are alike -/

namespace Exec

/-- The same value or the same fault, in states that are alike. -/
inductive ResultAlike (R : Prototype → Prototype → Prop) {α : Type} :
    EStateM.Result Fault Scope α → EStateM.Result Fault Scope α → Prop
  | ok {a : α} {s s' : Scope} : s.Alike R s' → ResultAlike R (.ok a s) (.ok a s')
  | error {fault : Fault} {s s' : Scope} : s.Alike R s' →
      ResultAlike R (.error fault s) (.error fault s')

/-- The action does the same in states that are alike. -/
def Respects (K : Correspondence) {α : Type} (x : Exec α) : Prop :=
  ∀ ⦃s s' : Scope⦄, s.Alike K.rel s' → ResultAlike K.rel (x s) (x s')

variable {K : Correspondence} {α β : Type}

theorem ResultAlike.bind {x x' : Exec α} {f f' : α → Exec β} {s s' : Scope}
    (hx : ResultAlike K.rel (x s) (x' s'))
    (hf : ∀ a t t', t.Alike K.rel t' → ResultAlike K.rel (f a t) (f' a t')) :
    ResultAlike K.rel ((x >>= f) s) ((x' >>= f') s') := by
  show ResultAlike K.rel (EStateM.bind x f s) (EStateM.bind x' f' s')
  unfold EStateM.bind
  generalize x s = r at hx ⊢
  generalize x' s' = r' at hx ⊢
  cases hx with
  | ok ht => exact hf _ _ _ ht
  | error ht => exact .error ht

theorem respects_pure (a : α) : Respects K (pure a : Exec α) := fun _ _ hs => .ok hs

theorem respects_throw (fault : Fault) : Respects K (throw fault : Exec α) :=
  fun _ _ hs => .error hs

theorem respects_bind {x : Exec α} {f : α → Exec β} (hx : Respects K x)
    (hf : ∀ a, Respects K (f a)) : Respects K (x >>= f) :=
  fun _ _ hs => (hx hs).bind fun a _ _ ht => hf a ht

/-! ### Registers, upvalues, constants and code -/

theorem respects_lookup (what : Indexed) (xs : List α) (i : Nat) :
    Respects K (lookup what xs i) := by
  intro s s' hs
  unfold lookup
  split
  · exact .ok hs
  · exact .error hs

theorem respects_cell (r : Nat) : Respects K (cell r) := by
  intro s s' hs
  rw [cell, cell, hs.frame.registers]
  exact respects_lookup _ _ _ hs

theorem respects_upvalueCell (i : Nat) : Respects K (upvalueCell i) := by
  intro s s' hs
  rw [upvalueCell, upvalueCell, hs.frame.upvalues]
  exact respects_lookup _ _ _ hs

theorem respects_readCell (ref : CellRef) : Respects K (readCell ref) := by
  intro s s' hs
  rw [readCell, readCell, hs.heap.cell_eq]
  exact .ok hs

theorem respects_writeCell (ref : CellRef) (v : Value) : Respects K (writeCell ref v) :=
  fun _ _ hs => .ok ⟨hs.frame, hs.heap.setCell ref v⟩

theorem respects_constant (i : Nat) : Respects K (constant i) := by
  intro s s' hs
  rw [constant, constant, K.constants hs.frame.proto]
  split
  · exact .ok hs
  · exact .error hs

theorem respects_skip : Respects K skip := fun _ _ hs =>
  .ok ⟨{ hs.frame with pc := congrArg (· + 1) hs.frame.pc }, hs.heap⟩

theorem respects_jump (distance : Int) : Respects K (jump distance) := by
  intro s s' hs
  unfold jump
  rw [hs.frame.pc, K.code hs.frame.proto]
  dsimp only
  split
  · exact .error hs
  · exact .ok ⟨{ hs.frame with pc := rfl }, hs.heap⟩

theorem respects_extraArg : Respects K extraArg := by
  intro s s' hs
  unfold extraArg
  rw [hs.frame.pc, K.code hs.frame.proto]
  split
  · exact .ok ⟨{ hs.frame with pc := rfl }, hs.heap⟩
  · exact .error hs

/-! ### Tables and closures -/

theorem respects_tableOf (action : Action) (v : Value) : Respects K (tableOf action v) := by
  intro s s' hs
  unfold tableOf
  split
  · exact .ok hs
  · exact .error hs

theorem respects_readTable (ref : TableRef) : Respects K (readTable ref) := by
  intro s s' hs
  rw [readTable, readTable, hs.heap.table_eq]
  exact .ok hs

theorem respects_writeTable (ref : TableRef) (t : Table) : Respects K (writeTable ref t) :=
  fun _ _ hs => .ok ⟨hs.frame, hs.heap.setTable ref t⟩

theorem respects_newTable (t : Table) : Respects K (newTable t) := by
  rintro ⟨f, h⟩ ⟨f', h'⟩ ⟨hf, hh⟩
  show ResultAlike K.rel (.ok (Value.table (h.newTable t).1) ⟨f, (h.newTable t).2⟩)
    (.ok (Value.table (h'.newTable t).1) ⟨f', (h'.newTable t).2⟩)
  rw [hh.newTable_ref t]
  exact .ok ⟨hf, hh.newTable t⟩

theorem respects_close (first : Nat) : Respects K (close first) := by
  rintro ⟨f, h⟩ ⟨f', h'⟩ ⟨hf, hh⟩
  have hvalues : (f.registers.drop first).map h.cell = (f'.registers.drop first).map h'.cell := by
    rw [hf.registers]
    exact List.map_congr_left fun ref _ => hh.cell_eq ref
  refine .ok ⟨{ hf with registers := ?_ }, ?_⟩
  · show f.registers.take first ++ (h.newCells _).1 = f'.registers.take first ++ (h'.newCells _).1
    rw [hvalues, hf.registers, hh.newCells_refs]
  · show (h.newCells _).2.Alike K.rel (h'.newCells _).2
    rw [hvalues]
    exact hh.newCells _

theorem respects_ofExcept (x : Except Fault α) : Respects K (ofExcept x) := by
  intro s s' hs
  unfold ofExcept
  split
  · exact .ok hs
  · exact .error hs

theorem newClosure_alike {c c' : Closure} (hc : c.Alike K.rel c') {s s' : Scope}
    (hs : s.Alike K.rel s') : ResultAlike K.rel (newClosure c s) (newClosure c' s') := by
  obtain ⟨f, h⟩ := s
  obtain ⟨f', h'⟩ := s'
  obtain ⟨hf, hh⟩ := hs
  show ResultAlike K.rel (.ok (Value.closure (h.newClosure c).1) ⟨f, (h.newClosure c).2⟩)
    (.ok (Value.closure (h'.newClosure c').1) ⟨f', (h'.newClosure c').2⟩)
  rw [hh.newClosure_ref c c']
  exact .ok ⟨hf, hh.newClosure hc⟩

/-- Which cells a closure captures depends on the places only. -/
theorem captureAll_congr {us us' : List UpvalueSource}
    (h : us.map UpvalueSource.place = us'.map UpvalueSource.place) :
    captureAll us = captureAll us' := by
  induction us generalizing us' with
  | nil =>
      cases us' with
      | nil => rfl
      | cons u' rest' => exact absurd h (by simp)
  | cons u rest ih =>
      cases us' with
      | nil => exact absurd h (by simp)
      | cons u' rest' =>
          obtain ⟨hplace, hrest⟩ := List.cons.inj h
          obtain ⟨hstack, hindex⟩ := Prod.mk.inj hplace
          rw [captureAll, captureAll, ih hrest, capture, capture, hstack, hindex]

theorem respects_composed : Composed (Respects K) where
  pure := respects_pure
  bind := respects_bind
  cell := respects_cell
  upvalueCell := respects_upvalueCell

theorem respects_createClosure (bx : Nat) : Respects K (createClosure bx) := by
  intro s s' hs
  have hproto := hs.frame.proto
  cases hchild : s.frame.proto.protos[bx]? with
  | none =>
      have hchild' : s'.frame.proto.protos[bx]? = none := by
        rw [List.getElem?_eq_none_iff] at hchild ⊢
        rwa [← K.protos_length hproto]
      rw [createClosure_none hchild, createClosure_none hchild', K.protos_length hproto]
      exact .error hs
  | some child =>
      -- the nested functions may differ, but they capture from the same places
      obtain ⟨child', hchild', hrel⟩ := K.protos_get hproto hchild
      rw [createClosure_some hchild, createClosure_some hchild', captureAll_congr (K.places hrel),
        hs.frame.fileUpvalues]
      refine (respects_composed.captureAll _ hs).bind fun upvalues _ _ ht => newClosure_alike ?_ ht
      exact ⟨hrel, rfl, rfl⟩

/-! ### Instructions -/

theorem respects_inherited : Inherited (Respects K) where
  toComposed := respects_composed
  readCell := respects_readCell
  writeCell := respects_writeCell
  constant := respects_constant
  tableOf := respects_tableOf
  readTable := respects_readTable
  writeTable := respects_writeTable
  newTable := respects_newTable
  createClosure := respects_createClosure
  close := respects_close
  skip := respects_skip
  extraArg := respects_extraArg
  jump _ := respects_jump _
  wrongKey _ _ _ := respects_throw _
  nilKey _ := respects_throw _

theorem respects_storeResults (first wanted : Nat) (results : List Value) :
    Respects K (storeResults first wanted results) :=
  respects_inherited.storeResults first wanted results

theorem respects_returnFrom (a b : Nat) : Respects K (returnFrom a b) := by
  intro s s' hs
  unfold returnFrom
  rw [hs.frame.registers]
  exact respects_bind (respects_inherited.regs a _) (fun _ => respects_pure _) hs

/-- Every instruction does the same in states that are alike. -/
theorem respects_execute (i : Instruction) (op : Opcode) : Respects K (i.execute op) :=
  respects_inherited.execute i op (fun _ => respects_jump _) (fun _ => respects_jump _)
    respects_returnFrom (fun _ _ _ => respects_ofExcept _) fun _ _ => respects_throw _

end Exec

end LuaBytecode
