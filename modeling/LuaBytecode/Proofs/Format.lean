import Mathlib
import LuaBytecode.Chunk.Basic
import LuaBytecode.Proofs.Words

/-! # The format of images

Which bytes may stand for each part of a chunk, said without reading or writing
any. A part can have many forms: numbers may carry idle groups or spill over 64
bits, a missing text has two sizes, and the tag of a text does not tell its
length.

- `Varuint`, `Count`, `Text`: numbers and texts.
- `Sequence`, `Counted`: elements one after the other.
- `Function`, `Functions`: a tree of functions, where a missing source is that
  of the enclosing function.
- `Image`: whole chunks.
-/

namespace LuaBytecode

/-- The ways in which the values of a type may be stored. -/
abbrev Form (α : Type) := α → Bytes → Prop

/-! ## Trees of functions -/

mutual

/-- How many levels of functions lie below a function. -/
def Prototype.height : Prototype → Nat
  | ⟨_, _, _, _, _, _, _, _, _, protos, _⟩ => Prototype.heightList protos

/-- How many levels a list of functions takes up. -/
def Prototype.heightList : List Prototype → Nat
  | [] => 0
  | p :: rest => max (p.height + 1) (heightList rest)

end

theorem Prototype.height_eq (p : Prototype) : p.height = heightList p.protos := by
  cases p
  rw [height]

theorem Prototype.heightList_le_iff {ps : List Prototype} {n : Nat} :
    heightList ps ≤ n ↔ ∀ p ∈ ps, p.height < n := by
  induction ps with
  | nil => simp [heightList]
  | cons p rest ih =>
      rw [heightList, Nat.max_le, ih, List.forall_mem_cons]
      exact Iff.rfl

/-- A property of a function and of all functions nested in it. -/
inductive Prototype.Everywhere (P : Prototype → Prop) : Prototype → Prop
  | intro {p : Prototype} : P p → (∀ c ∈ p.protos, Everywhere P c) → Everywhere P p

theorem Prototype.Everywhere.here {P : Prototype → Prop} {p : Prototype} (h : p.Everywhere P) :
    P p := by
  cases h with
  | intro hp _ => exact hp

theorem Prototype.Everywhere.nested {P : Prototype → Prop} {p : Prototype} (h : p.Everywhere P) :
    ∀ c ∈ p.protos, c.Everywhere P := by
  cases h with
  | intro _ hnested => exact hnested

theorem Prototype.Everywhere.mono {P Q : Prototype → Prop} (hPQ : ∀ p, P p → Q p)
    {p : Prototype} (h : p.Everywhere P) : p.Everywhere Q := by
  induction h with
  | intro hp _ ih => exact .intro (hPQ _ hp) ih

namespace Format

/-! ## Numbers and texts -/

/-- The number that groups of seven bits spell, most significant first. The high
bit of a byte does not count. -/
def groups (bytes : Bytes) : Nat :=
  bytes.foldl (fun n b => n * 128 + b.toNat % 128) 0

/-- Groups of which only the last has its high bit set. There may be more of
them than the number needs, and what they spell counts modulo `2 ^ 64`. -/
def Varuint : Form UInt64 := fun v bytes =>
  ∃ high last, bytes = high ++ [last] ∧ (∀ b ∈ high, b < 128) ∧ 128 ≤ last ∧
    v = UInt64.ofNat (groups bytes)

/-- A number of things to come. -/
def Count : Form Nat := fun n bytes => ∃ v, Varuint v bytes ∧ n = v.toNat

/-- A text in UTF-8 after its size, which counts one more than its bytes. Sizes
0 and 1 mean that there is no text. -/
inductive Text : Option String → Bytes → Prop
  | absent {n : Nat} {size : Bytes} : n ≤ 1 → Count n size → Text none size
  | present {s : String} {size : Bytes} :
      s ≠ "" → Count (s.utf8ByteSize + 1) size →
      Text (some s) (size ++ Bytes.ofText s)

/-- A word, least significant byte first. -/
def Word (α : Type) [FixedWidth α] : Form α := fun a bytes =>
  bytes = FixedWidth.encode a

/-! ## Elements one after the other -/

inductive Sequence {α : Type} (form : Form α) : List α → Bytes → Prop
  | nil : Sequence form [] []
  | cons {a : α} {rest : List α} {head tail : Bytes} :
      form a head → Sequence form rest tail →
      Sequence form (a :: rest) (head ++ tail)

/-- The number of elements, then the elements. -/
def Counted {α : Type} (form : Form α) : Form (List α) := fun xs bytes =>
  ∃ size items, Count xs.length size ∧ Sequence form xs items ∧
    bytes = size ++ items

/-! ## Parts of a function -/

/-- A tag and what belongs to it. The two tags of texts mean the same, and a
missing text is the empty one. -/
inductive Const : Constant → Bytes → Prop
  | nil : Const .nil [0x00]
  | false : Const (.bool false) [0x01]
  | true : Const (.bool true) [0x11]
  | int {i : Int64} {word : Bytes} :
      Word Int64 i word → Const (.int i) (0x03 :: word)
  | float {f : Binary64} {word : Bytes} :
      Word Binary64 f word → Const (.float f) (0x13 :: word)
  | str {tag : UInt8} {stored : Option String} {text : Bytes} :
      tag = 0x04 ∨ tag = 0x14 → Text stored text →
      Const (.str (stored.getD "")) (tag :: text)

/-- Any byte but zero says that the upvalue is among the registers. -/
def Upvalue : Form UpvalueSource := fun u bytes =>
  ∃ flag : UInt8, u.inStack = decide (flag ≠ 0) ∧ bytes = [flag, u.index, u.kind]

def Checkpoint : Form LineCheckpoint := fun l bytes =>
  ∃ pc line, Varuint l.pc pc ∧ Varuint l.line line ∧ bytes = pc ++ line

/-- A missing name is `anonymousName`. -/
def Name : Form String := fun name bytes =>
  ∃ stored, Text stored bytes ∧ name = stored.getD anonymousName

def Local : Form LocalVariable := fun v bytes =>
  ∃ name startPc endPc, Name v.name name ∧ Varuint v.startPc startPc ∧
    Varuint v.endPc endPc ∧ bytes = name ++ startPc ++ endPc

def Debug : Form DebugInfo := fun d bytes =>
  ∃ size checkpoints locals names,
    Count d.lineDeltas.length size ∧
    Counted Checkpoint d.checkpoints checkpoints ∧
    Counted Local d.locals locals ∧
    Counted Name d.upvalueNames names ∧
    bytes = size ++ d.lineDeltas ++ checkpoints ++ locals ++ names

/-! ## Functions -/

mutual

/-- A function inside one with the given source, which it takes over if it has
none of its own. -/
inductive Function : Option String → Prototype → Bytes → Prop
  | intro {enclosing stored : Option String} {p : Prototype}
      {source firstLine lastLine code constants upvalues size protos debug : Bytes} :
      Text stored source → p.source = stored.or enclosing →
      Varuint p.lineDefined firstLine → Varuint p.lastLineDefined lastLine →
      Counted (Word Instruction) p.code.toList code →
      Counted Const p.constants.toList constants →
      Counted Upvalue p.upvalues upvalues →
      Count p.protos.length size → Functions p.source p.protos protos →
      Debug p.debug debug →
      Function enclosing p
        (source ++ firstLine ++ lastLine
          ++ [p.paramCount, p.varargFlag, p.stackSize]
          ++ code ++ constants ++ upvalues ++ size ++ protos ++ debug)

/-- Functions inside one with the given source. -/
inductive Functions : Option String → List Prototype → Bytes → Prop
  | nil {enclosing : Option String} : Functions enclosing [] []
  | cons {enclosing : Option String} {p : Prototype} {rest : List Prototype}
      {head tail : Bytes} :
      Function enclosing p head → Functions enclosing rest tail →
      Functions enclosing (p :: rest) (head ++ tail)

end

theorem functions_iff_sequence {enclosing : Option String}
    {ps : List Prototype} {bytes : Bytes} :
    Functions enclosing ps bytes ↔ Sequence (Function enclosing) ps bytes := by
  constructor
  · intro h
    induction ps generalizing bytes with
    | nil =>
        cases h
        exact .nil
    | cons p rest ih =>
        cases h with
        | cons hhead htail => exact .cons hhead (ih htail)
  · intro h
    induction h with
    | nil => exact .nil
    | cons hhead _ ih => exact .cons hhead ih

/-! ## Chunks -/

/-- The one header that images have: escape and `Lua`, version, format and check
bytes, the sizes of words, and the test numbers 0x5678 and 370.5. -/
def header : Bytes :=
  [0x1b, 0x4c, 0x75, 0x61, 0x54, 0x00, 0x19, 0x93, 0x0d, 0x0a, 0x1a, 0x0a,
   0x04, 0x08, 0x08, 0x78, 0x56, 0x00, 0x00, 0x00, 0x00, 0x00, 0x00,
   0x00, 0x00, 0x00, 0x00, 0x00, 0x28, 0x77, 0x40]

/-- The header, the number of upvalues, and the entry function, with no function
more than 200 levels below it. -/
def Image : Form Chunk := fun c bytes =>
  c.header = .canonical ∧ c.main.height ≤ 200 ∧
    ∃ body, Function none c.main body ∧ bytes = header ++ [c.upvalueCount] ++ body

/-! ## Sizes

Every element takes up at least one byte, so a list is never longer than the
bytes it is stored in. -/

theorem Varuint.ne_nil {v : UInt64} {bytes : Bytes} (h : Varuint v bytes) :
    bytes ≠ [] := by
  obtain ⟨high, last, rfl, -⟩ := h
  simp

theorem Count.ne_nil {n : Nat} {bytes : Bytes} (h : Count n bytes) :
    bytes ≠ [] := by
  obtain ⟨v, hv, -⟩ := h
  exact hv.ne_nil

theorem Text.ne_nil {s : Option String} {bytes : Bytes} (h : Text s bytes) :
    bytes ≠ [] := by
  cases h with
  | absent _ hsize => exact hsize.ne_nil
  | present _ hsize => exact List.append_ne_nil_of_left_ne_nil hsize.ne_nil _

theorem instruction_ne_nil {i : Instruction} {bytes : Bytes}
    (h : Word Instruction i bytes) : bytes ≠ [] := by
  have hlength : bytes.length = 4 := by
    rw [h]
    exact FixedWidth.length_encode i
  exact List.ne_nil_of_length_eq_add_one hlength

theorem Const.ne_nil {k : Constant} {bytes : Bytes} (h : Const k bytes) :
    bytes ≠ [] := by
  cases h <;> exact List.cons_ne_nil _ _

theorem Upvalue.ne_nil {u : UpvalueSource} {bytes : Bytes} (h : Upvalue u bytes) :
    bytes ≠ [] := by
  obtain ⟨flag, -, rfl⟩ := h
  exact List.cons_ne_nil _ _

theorem Checkpoint.ne_nil {l : LineCheckpoint} {bytes : Bytes}
    (h : Checkpoint l bytes) : bytes ≠ [] := by
  obtain ⟨pc, line, hpc, -, rfl⟩ := h
  exact List.append_ne_nil_of_left_ne_nil hpc.ne_nil _

theorem Name.ne_nil {name : String} {bytes : Bytes} (h : Name name bytes) :
    bytes ≠ [] := by
  obtain ⟨stored, hstored, -⟩ := h
  exact hstored.ne_nil

theorem Local.ne_nil {v : LocalVariable} {bytes : Bytes} (h : Local v bytes) :
    bytes ≠ [] := by
  obtain ⟨name, startPc, endPc, hname, -, -, rfl⟩ := h
  rw [List.append_assoc]
  exact List.append_ne_nil_of_left_ne_nil hname.ne_nil _

theorem Function.ne_nil {enclosing : Option String} {p : Prototype}
    {bytes : Bytes} (h : Function enclosing p bytes) : bytes ≠ [] := by
  cases h with
  | intro hsource =>
      simp only [List.append_assoc]
      exact List.append_ne_nil_of_left_ne_nil hsource.ne_nil _

theorem Sequence.length_le {α : Type} {form : Form α}
    (hform : ∀ {a bytes}, form a bytes → bytes ≠ []) {xs : List α}
    {bytes : Bytes} (h : Sequence form xs bytes) : xs.length ≤ bytes.length := by
  induction h with
  | nil => exact Nat.le_refl _
  | cons hhead _ ih =>
      have hpos := List.length_pos_of_ne_nil (hform hhead)
      rw [List.length_cons, List.length_append]
      omega

end Format

end LuaBytecode
