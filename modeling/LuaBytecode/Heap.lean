import LuaBytecode.Prototype
import LuaBytecode.Table

/-! # The heap

Cells hold the values of variables, so that a closure and the function that made it can share one.
Cells, tables and closures are only ever added; each is known by its place.
-/

namespace LuaBytecode

/-- A function together with the cells that its upvalues stand for. -/
structure Closure where
  proto : Prototype
  upvalues : List CellRef
  /-- The number of upvalues an activation has at least. -/
  fileUpvalues : Nat
  deriving Inhabited

structure Heap where
  cells : Array Value := #[]
  tables : Array Table := #[]
  closures : Array Closure := #[]
  deriving Inhabited

namespace Heap

def empty : Heap := {}

/-! ## Cells -/

def cell (h : Heap) (ref : CellRef) : Value := h.cells.getD ref .nil

def setCell (h : Heap) (ref : CellRef) (v : Value) : Heap :=
  { h with cells := h.cells.setIfInBounds ref v }

/-- New cells with the given values. -/
def newCells (h : Heap) (values : List Value) : List CellRef × Heap :=
  (List.range' h.cells.size values.length, { h with cells := h.cells ++ values.toArray })

/-! ## Tables -/

def table (h : Heap) (ref : TableRef) : Table := h.tables.getD ref .empty

def setTable (h : Heap) (ref : TableRef) (t : Table) : Heap :=
  { h with tables := h.tables.setIfInBounds ref t }

def newTable (h : Heap) (t : Table) : TableRef × Heap :=
  (h.tables.size, { h with tables := h.tables.push t })

/-! ## Closures -/

def closure (h : Heap) (ref : ClosureRef) : Closure := h.closures.getD ref default

def newClosure (h : Heap) (c : Closure) : ClosureRef × Heap :=
  (h.closures.size, { h with closures := h.closures.push c })

end Heap

/-- The form of a value that shows its parts: text is quoted, and tables and closures are
described. -/
def Value.inspect (h : Heap) : Value → String
  | .str s => Text.quoted s
  | .table ref => s!"table({(h.table ref).size} entries)@" ++ address ref
  | .closure ref =>
    let c := h.closure ref
    let source := s!"source: {Text.quoted c.proto.sourceName}"
    let line := s!"line: {c.proto.lineDefined}"
    s!"Closure \x7b {source}, {line}, upvalues: {c.upvalues.length} \x7d"
  | .host name => s!"builtin({name})"
  | v => v.text

end LuaBytecode
