import LuaBytecode.Prototype

/-! # Listings

A prototype as text: its sizes, one line for each instruction, tables of constants, locals and
upvalues, and the nested functions, each level set in by two spaces. A line of code may end in an
annotation that names what the operands refer to.
-/

namespace LuaBytecode

/-- What the operands of an instruction refer to. Places in the code count from one. -/
inductive Annotation where
  | constant (index : Nat)
  | upvalue (index : Nat)
  | upvalueField (upvalue constant : Nat)
  | jump (target : Int64)
  | exit (target : Int64)
  | function (index : Nat)
  | variable (name : String)
  deriving DecidableEq, Repr

namespace Listing

/-- The place, counted from one, that lies `distance` after the instruction at `pc`. -/
def place (pc : Nat) (distance : Int64) : Int64 := .ofNat pc + distance + 1

/-- The annotation of the instruction `i` at `pc`. -/
def annotation? (p : Prototype) (pc : Nat) (i : Instruction) : Opcode → Option Annotation
  | .loadK => some (.constant i.bx)
  | .getTabUp => some (.upvalueField i.b.toNat i.c.toNat)
  | .setTabUp => some (.upvalueField i.a.toNat i.b.toNat)
  | .getField => some (.constant i.c.toNat)
  | .self => if i.k then some (.constant i.c.toNat) else none
  | .setField => some (.constant i.b.toNat)
  | .addK | .subK | .mulK | .modK | .powK | .divK | .idivK | .bandK | .borK | .bxorK =>
    some (.constant i.c.toNat)
  | .eqK => some (.constant i.b.toNat)
  | .getUpvalue | .setUpvalue => some (.upvalue i.b.toNat)
  | .jmp => some (.jump (place pc (.ofInt i.sj + 1)))
  | .forPrep => some (.exit (place pc (.ofNat i.bx + 2)))
  | .forLoop => some (.jump (place pc (1 - .ofNat i.bx)))
  | .closure => some (.function i.bx)
  | .move => (p.debug.localName? i.b.toNat pc).map .variable
  | _ => none

/-- The constant at an index, or a question mark. -/
def constantText (p : Prototype) (index : Nat) : String :=
  match p.constants[index]? with
  | some k => k.text
  | none => "?"

/-- The name of an upvalue, or a question mark. -/
def upvalueText (p : Prototype) (index : Nat) : String :=
  (p.debug.upvalueName? index).getD "?"

def annotationText (p : Prototype) : Annotation → String
  | .constant index => constantText p index
  | .upvalue index => upvalueText p index
  | .upvalueField upvalue constant => upvalueText p upvalue ++ " " ++ constantText p constant
  | .jump target => s!"to {target}"
  | .exit target => s!"exit to {target}"
  | .function index => s!"function [{index}]"
  | .variable name => name

/-- The operands in the layout of the operation. -/
def operandText (i : Instruction) : OperandLayout → String
  | .abc => s!"{i.a} {i.b} {i.c}" ++ if i.k then "k" else ""
  | .abx => s!"{i.a} {i.bx}"
  | .asbx => s!"{i.a} {i.sbx}"
  | .ax => toString i.ax
  | .sj => toString i.sj

/-- Fill up with spaces behind the text. -/
def padRight (width : Nat) (s : String) : String :=
  s ++ String.ofList (List.replicate (width - s.length) ' ')

/-- Fill up with spaces before the text. -/
def padLeft (width : Nat) (s : String) : String :=
  String.ofList (List.replicate (width - s.length) ' ') ++ s

def instructionText (p : Prototype) (pc : Nat) (i : Instruction) : String :=
  match i.opcode? with
  | none => s!"<invalid {i.opcodeNumber}>"
  | some op =>
    let annotation := match annotation? p pc i op with
      | some a => "\t; " ++ annotationText p a
      | none => ""
    padRight 12 op.mnemonic ++ operandText i op.layout ++ annotation

def lineText (p : Prototype) (pc : Nat) : String :=
  match p.lineAt? pc with
  | some line => s!"[{line}]"
  | none => "[-]"

def codeLine (p : Prototype) (entry : Instruction × Nat) : String :=
  let (i, pc) := entry
  s!"\t{pc + 1}\t" ++ padLeft 5 (lineText p pc) ++ "\t" ++ instructionText p pc i

/-- The two lines that open a function. -/
def heading (p : Prototype) : List String :=
  let lines := s!"{p.lineDefined},{p.lastLineDefined}"
  let params := s!"{p.paramCount}" ++ if p.varargFlag ≠ 0 then "+" else ""
  [ s!"function <{p.sourceName}:{lines}> ({p.code.size} instructions)",
    s!"{params} params, {p.stackSize} slots, {p.upvalues.length} upvalues, " ++
    s!"{p.debug.locals.length} locals, {p.constants.size} constants, " ++
    s!"{p.protos.length} functions" ]

/-- A titled table, or nothing if there are no rows. -/
def titled (title : String) (rows : List String) : List String :=
  if rows.isEmpty then [] else s!"{title} ({rows.length}):" :: rows

def constantRow (entry : Constant × Nat) : String :=
  let (k, index) := entry
  s!"\t{index}\t" ++ k.text

/-- A place in the code as listings give it. Stored places take all of 64 bits, and the last one
wraps around. -/
def countedFromOne (pc : UInt64) : UInt64 := pc + 1

def localRow (entry : LocalVariable × Nat) : String :=
  let (v, index) := entry
  s!"\t{index}\t{v.name}\t{countedFromOne v.startPc}\t{countedFromOne v.endPc}"

def upvalueRow (p : Prototype) (entry : UpvalueSource × Nat) : String :=
  let (u, index) := entry
  let name := (p.debug.upvalueName? index).getD "-"
  s!"\t{index}\t{name}\t{u.inStack.toNat}\t{u.index}"

/-- The lines of a function without the functions in it. -/
def ownLines (p : Prototype) : List String :=
  heading p
    ++ p.code.toList.zipIdx.map (codeLine p)
    ++ titled "constants" (p.constants.toList.zipIdx.map constantRow)
    ++ titled "locals" (p.debug.locals.zipIdx.map localRow)
    ++ titled "upvalues" (p.upvalues.zipIdx.map (upvalueRow p))

def indent (level : Nat) (line : String) : String :=
  String.ofList (List.replicate (2 * level) ' ') ++ line ++ "\n"

mutual

/-- The lines of a function and of the functions in it, set in by `level` levels. -/
def lines (level : Nat) : Prototype → List String
  | ⟨source, lineDefined, lastLineDefined, paramCount, varargFlag, stackSize, code, constants,
      upvalues, protos, debug⟩ =>
    (ownLines ⟨source, lineDefined, lastLineDefined, paramCount, varargFlag, stackSize, code,
      constants, upvalues, protos, debug⟩).map (indent level)
      ++ nestedLines level 0 protos

/-- The functions of a list, numbered from `index` on. -/
def nestedLines (level index : Nat) : List Prototype → List String
  | [] => []
  | p :: rest =>
    indent level s!"function [{index}]:" :: (lines (level + 1) p)
      ++ nestedLines level (index + 1) rest

end

end Listing

/-- The listing of a prototype. -/
def Prototype.listing (p : Prototype) : String :=
  String.join (Listing.lines 0 p)

end LuaBytecode
