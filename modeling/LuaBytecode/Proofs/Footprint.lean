import Mathlib
import LuaBytecode.Proofs.Prefix

/-! # What is read is no larger than its image

Counts in an image are whatever its bytes say, up to 64 bits. Still, a chunk that has been read
is no larger than its image: every element of a list takes up at least as many bytes as there
are numbers, texts and words in it, and a function has some more bytes of its own.

It is known before the elements are read that there is room for them. The decoder asks for space
when it has accepted a count, and a count is accepted if as many bytes are left. To say this of
all counts that are met on the way, also where decoding stops later on, the decoder is written
down a second time with a ledger of the space that it asks for. Apart from the ledger it is the
same decoder.
-/

namespace LuaBytecode

/-! ## Sums over trees of functions -/

mutual

/-- The sum of a number over a function and all functions nested in it. -/
def Prototype.sumOver (f : Prototype → Nat) : Prototype → Nat
  | ⟨source, lineDefined, lastLineDefined, paramCount, varargFlag, stackSize, code, constants,
      upvalues, protos, debug⟩ =>
    f ⟨source, lineDefined, lastLineDefined, paramCount, varargFlag, stackSize, code, constants,
      upvalues, protos, debug⟩ + Prototype.sumOverList f protos

def Prototype.sumOverList (f : Prototype → Nat) : List Prototype → Nat
  | [] => 0
  | p :: rest => p.sumOver f + sumOverList f rest

end

namespace Prototype

mutual

theorem total_mul_le {f : Prototype → Nat} {n : Nat} (hf : ∀ p, n ≤ f p) :
    ∀ p : Prototype, p.total * n ≤ p.sumOver f
  | ⟨source, lineDefined, lastLineDefined, paramCount, varargFlag, stackSize, code, constants,
      upvalues, protos, debug⟩ => by
      rw [total, sumOver, Nat.add_mul, Nat.one_mul]
      exact Nat.add_le_add (hf _) (totalList_mul_le hf protos)

theorem totalList_mul_le {f : Prototype → Nat} {n : Nat} (hf : ∀ p, n ≤ f p) :
    ∀ ps : List Prototype, totalList ps * n ≤ sumOverList f ps
  | [] => by simp [totalList, sumOverList]
  | p :: rest => by
      rw [totalList, sumOverList, Nat.add_mul]
      exact Nat.add_le_add (total_mul_le hf p) (totalList_mul_le hf rest)

end

/-- The fewest bytes that a function can take up, apart from the functions nested in it. -/
def leastSize (p : Prototype) : Nat :=
  14 + 4 * p.code.size + p.constants.size + 3 * p.upvalues.length
    + p.debug.lineDeltas.length + 2 * p.debug.checkpoints.length + 3 * p.debug.locals.length
    + p.debug.upvalueNames.length

end Prototype

/-! ## Sizes of the parts -/

namespace Format

/-- Whatever is stored in the form takes up so many bytes or more. -/
def AtLeast {α : Type} (n : Nat) (form : Form α) : Prop :=
  ∀ ⦃a : α⦄ ⦃bytes : Bytes⦄, form a bytes → n ≤ bytes.length

theorem atLeast_one {α : Type} {form : Form α} (h : ∀ {a bytes}, form a bytes → bytes ≠ []) :
    AtLeast 1 form :=
  fun _ _ ha => List.length_pos_of_ne_nil (h ha)

theorem Sequence.mul_length_le {α : Type} {form : Form α} {n : Nat} (hform : AtLeast n form)
    {xs : List α} {bytes : Bytes} (h : Sequence form xs bytes) :
    n * xs.length ≤ bytes.length := by
  induction h with
  | nil => exact Nat.le_refl _
  | cons hhead _ ih =>
      have hfirst := hform hhead
      rw [List.length_cons, List.length_append, Nat.mul_succ]
      omega

theorem Counted.mul_length_lt {α : Type} {form : Form α} {n : Nat} (hform : AtLeast n form)
    {xs : List α} {bytes : Bytes} (h : Counted form xs bytes) :
    n * xs.length < bytes.length := by
  obtain ⟨size, items, hsize, hitems, rfl⟩ := h
  have hcount := List.length_pos_of_ne_nil hsize.ne_nil
  have hrest := hitems.mul_length_le hform
  rw [List.length_append]
  omega

theorem atLeast_instruction : AtLeast 4 (Word Instruction) := by
  rintro i _ rfl
  exact (FixedWidth.length_encode i).ge

theorem atLeast_upvalue : AtLeast 3 Upvalue := by
  rintro u _ ⟨flag, -, rfl⟩
  exact Nat.le_refl 3

theorem atLeast_checkpoint : AtLeast 2 Checkpoint := by
  rintro l _ ⟨pc, line, hpc, hline, rfl⟩
  rw [List.length_append]
  exact Nat.add_le_add (List.length_pos_of_ne_nil hpc.ne_nil)
    (List.length_pos_of_ne_nil hline.ne_nil)

theorem atLeast_local : AtLeast 3 Local := by
  rintro v _ ⟨name, startPc, endPc, hname, hstart, hend, rfl⟩
  rw [List.length_append, List.length_append]
  exact Nat.add_le_add (Nat.add_le_add (List.length_pos_of_ne_nil hname.ne_nil)
    (List.length_pos_of_ne_nil hstart.ne_nil)) (List.length_pos_of_ne_nil hend.ne_nil)

theorem Debug.le_length {d : DebugInfo} {bytes : Bytes} (h : Debug d bytes) :
    4 + d.lineDeltas.length + 2 * d.checkpoints.length + 3 * d.locals.length
      + d.upvalueNames.length ≤ bytes.length := by
  obtain ⟨size, checkpoints, locals, names, hsize, hcheckpoints, hlocals, hnames, rfl⟩ := h
  have hcount := List.length_pos_of_ne_nil hsize.ne_nil
  have hcheckpoints := hcheckpoints.mul_length_lt atLeast_checkpoint
  have hlocals := hlocals.mul_length_lt atLeast_local
  have hnames := hnames.mul_length_lt (atLeast_one Name.ne_nil)
  simp only [List.length_append]
  omega

/-- A function has room for its own parts beside the functions nested in it. -/
theorem Function.leastSize_le {enclosing : Option String} {p : Prototype} {bytes : Bytes}
    (h : Function enclosing p bytes) :
    ∃ nested, Functions p.source p.protos nested ∧
      p.leastSize + nested.length ≤ bytes.length := by
  cases h with
  | @intro _ _ _ _ _ _ _ _ _ _ nested _ hsource _ hfirst hlast hcode hconstants hupvalues hsize
      hnested hdebug =>
      have hsource := List.length_pos_of_ne_nil hsource.ne_nil
      have hfirst := List.length_pos_of_ne_nil hfirst.ne_nil
      have hlast := List.length_pos_of_ne_nil hlast.ne_nil
      have hcode := hcode.mul_length_lt atLeast_instruction
      have hconstants := hconstants.mul_length_lt (atLeast_one Const.ne_nil)
      have hupvalues := hupvalues.mul_length_lt atLeast_upvalue
      have hsize := List.length_pos_of_ne_nil hsize.ne_nil
      have hdebug := hdebug.le_length
      rw [Array.length_toList] at hcode hconstants
      refine ⟨nested, hnested, ?_⟩
      simp only [Prototype.leastSize, List.length_append, List.length_cons, List.length_nil]
      omega

mutual

theorem Function.sumOver_le : ∀ (p : Prototype) {enclosing : Option String} {bytes : Bytes},
    Function enclosing p bytes → p.sumOver Prototype.leastSize ≤ bytes.length
  | ⟨_, _, _, _, _, _, _, _, _, protos, _⟩, _, _, h => by
      obtain ⟨nested, hnested, hle⟩ := h.leastSize_le
      have hprotos := Functions.sumOverList_le protos hnested
      rw [Prototype.sumOver]
      omega

theorem Functions.sumOverList_le :
    ∀ (ps : List Prototype) {enclosing : Option String} {bytes : Bytes},
    Functions enclosing ps bytes → Prototype.sumOverList Prototype.leastSize ps ≤ bytes.length
  | [], _, _, _ => by
      rw [Prototype.sumOverList]
      exact Nat.zero_le _
  | p :: rest, _, _, h => by
      cases h with
      | cons hhead htail =>
          rw [Prototype.sumOverList, List.length_append]
          exact Nat.add_le_add (Function.sumOver_le p hhead) (Functions.sumOverList_le rest htail)

end

theorem Image.sumOver_le {c : Chunk} {bytes : Bytes} (h : Image c bytes) :
    32 + c.main.sumOver Prototype.leastSize ≤ bytes.length := by
  obtain ⟨-, -, body, hbody, rfl⟩ := h
  have hmain := Function.sumOver_le c.main hbody
  have hheader : header.length = 31 := rfl
  rw [List.length_append, List.length_append, List.length_singleton, hheader]
  omega

end Format

theorem Chunk.sumOver_le_of_decode {image : Bytes} {c : Chunk} (h : decode image = .ok c) :
    32 + c.main.sumOver Prototype.leastSize ≤ image.length := by
  obtain ⟨c', hd⟩ := decode_eq_ok_iff.mp h
  obtain ⟨bytes, himage, hpast⟩ := reads_decoder.sound hd
  have hlength : image.length = bytes.length + c'.remaining := hpast.remaining_eq
  have hsum := himage.sumOver_le
  omega

/-! ## Keeping a ledger -/

/-- The decoder asks for space for so many elements, with so many bytes left. -/
structure Reservation where
  count : Nat
  left : Nat
  deriving DecidableEq

/-- A place in an image, and the space that has been asked for on the way to it. -/
structure Ledger where
  cursor : Cursor
  made : List Reservation

/-- A decoder that keeps a ledger, also where it stops. -/
abbrev Accounted (α : Type) := EStateM DecodeFault Ledger α

namespace Accounted

variable {α β : Type}

/-- What a decoder ends with, and a ledger. -/
def withLedger (made : List Reservation) :
    EStateM.Result DecodeFault Cursor α → EStateM.Result DecodeFault Ledger α
  | .ok a c => .ok a ⟨c, made⟩
  | .error fault c => .error fault ⟨c, made⟩

/-- A decoder that asks for no space. -/
def plain (d : Decoder α) : Accounted α := fun l => withLedger l.made (d l.cursor)

def reserve (n : Nat) : Accounted Unit := fun l =>
  .ok () ⟨l.cursor, l.made ++ [⟨n, l.cursor.remaining⟩]⟩

/-- A count, and space for as many elements. -/
def count : Accounted Nat := do
  let n ← plain Decoder.count
  reserve n
  return n

def times : Nat → Accounted α → Accounted (List α)
  | 0, _ => return []
  | n + 1, d => do
    let head ← d
    let tail ← times n d
    return head :: tail

def counted (d : Accounted α) : Accounted (List α) := do
  let n ← count
  times n d

end Accounted

open Accounted

def DebugInfo.decodeAccounted : Accounted DebugInfo := do
  let lineCount ← count
  let lineDeltas ← plain (Decoder.slice lineCount)
  let checkpoints ← counted (plain LineCheckpoint.decode)
  let locals ← counted (plain LocalVariable.decode)
  let upvalueNames ← counted (plain decodeName)
  return { lineDeltas, checkpoints, locals, upvalueNames }

def Prototype.decodeAccounted (h : Header) :
    (levels : Nat) → (enclosing : Option String) → Accounted Prototype
  | 0, _ => plain (throw (.nestingTooDeep nestingLimit))
  | levels + 1, enclosing => do
    let stored ← plain Decoder.string?
    let source := stored.or enclosing
    let lineDefined ← plain Decoder.varuint
    let lastLineDefined ← plain Decoder.varuint
    let paramCount ← plain Decoder.byte
    let varargFlag ← plain Decoder.byte
    let stackSize ← plain Decoder.byte
    let codeCount ← count
    let code ← plain (Decoder.array Instruction codeCount)
    let constants ← counted (plain (Constant.decode h))
    let upvalues ← counted (plain UpvalueSource.decode)
    let protos ← counted (decodeAccounted h levels source)
    let debug ← DebugInfo.decodeAccounted
    return { source, lineDefined, lastLineDefined, paramCount, varargFlag, stackSize
             code := code.toArray, constants := constants.toArray, upvalues, protos, debug }

def Chunk.decoderAccounted : Accounted Chunk := do
  let header ← plain Header.decode
  plain (ofExcept header.validate)
  let upvalueCount ← plain Decoder.byte
  let main ← Prototype.decodeAccounted header (Prototype.nestingLimit + 1) none
  return { header, upvalueCount, main }

/-! ## The ledger balances -/

variable {α β : Type}

/-- The two decoders are the same but for the ledger, and no entry of it asks for more than was
left. -/
def Accounts (t : Accounted α) (d : Decoder α) : Prop :=
  ∀ l : Ledger, ∃ new, t l = withLedger (l.made ++ new) (d l.cursor) ∧
    ∀ r ∈ new, r.count ≤ r.left

namespace Accounts

theorem no_entry (l : Ledger) (result : EStateM.Result DecodeFault Cursor α) :
    ∃ new, withLedger l.made result = withLedger (l.made ++ new) result ∧
      ∀ r ∈ new, r.count ≤ r.left :=
  ⟨[], by rw [List.append_nil], fun _ hr => absurd hr List.not_mem_nil⟩

theorem plain (d : Decoder α) : Accounts (plain d) d :=
  fun l => no_entry l (d l.cursor)

theorem pure (a : α) : Accounts (Pure.pure a) (Pure.pure a) :=
  plain (Pure.pure a)

theorem bind {t : Accounted α} {d : Decoder α} {f : α → Accounted β} {k : α → Decoder β}
    (ht : Accounts t d) (hf : ∀ a, Accounts (f a) (k a)) : Accounts (t >>= f) (d >>= k) := by
  intro l
  obtain ⟨new, htl, hnew⟩ := ht l
  show ∃ new, EStateM.bind t f l = withLedger (l.made ++ new) (EStateM.bind d k l.cursor) ∧ _
  unfold EStateM.bind
  rw [htl]
  cases d l.cursor with
  | error fault c => exact ⟨new, rfl, hnew⟩
  | ok a c =>
      obtain ⟨more, hfl, hmore⟩ := hf a ⟨c, l.made ++ new⟩
      refine ⟨new ++ more, ?_, ?_⟩
      · rw [← List.append_assoc]
        exact hfl
      · intro r hr
        rcases List.mem_append.mp hr with hr | hr
        · exact hnew r hr
        · exact hmore r hr

/-- Space is asked for after the count has been compared with the bytes that are left. -/
theorem count : Accounts count Decoder.count := by
  intro l
  show ∃ new, EStateM.bind (Accounted.plain Decoder.count) _ l = _ ∧ _
  unfold EStateM.bind Accounted.plain
  cases hcount : Decoder.count l.cursor with
  | error fault c => exact no_entry l (.error fault c)
  | ok n c =>
      obtain ⟨-, -, -, hle⟩ := Decoder.Reads.count_eq_ok_iff.mp hcount
      refine ⟨[⟨n, c.remaining⟩], rfl, ?_⟩
      intro r hr
      cases List.mem_singleton.mp hr
      exact hle

theorem times {t : Accounted α} {d : Decoder α} (ht : Accounts t d) (n : Nat) :
    Accounts (times n t) (Decoder.times n d) := by
  induction n with
  | zero => exact pure []
  | succ n ih => exact ht.bind fun head => ih.bind fun tail => pure (head :: tail)

theorem counted {t : Accounted α} {d : Decoder α} (ht : Accounts t d) :
    Accounts (counted t) (Decoder.counted d) :=
  count.bind ht.times

end Accounts

theorem DebugInfo.accounts_decode : Accounts decodeAccounted decode :=
  Accounts.count.bind fun _ => .bind (.plain _) fun _ => .bind (.counted (.plain _)) fun _ =>
    .bind (.counted (.plain _)) fun _ => .bind (.counted (.plain _)) fun _ => .pure _

theorem Prototype.accounts_decode (h : Header) (levels : Nat) (enclosing : Option String) :
    Accounts (decodeAccounted h levels enclosing) (decode h levels enclosing) := by
  induction levels generalizing enclosing with
  | zero => exact .plain _
  | succ levels ih =>
      exact .bind (.plain _) fun _ => .bind (.plain _) fun _ => .bind (.plain _) fun _ =>
        .bind (.plain _) fun _ => .bind (.plain _) fun _ => .bind (.plain _) fun _ =>
        .bind .count fun _ => .bind (.plain _) fun _ => .bind (.counted (.plain _)) fun _ =>
        .bind (.counted (.plain _)) fun _ => .bind (.counted (ih _)) fun _ =>
        .bind DebugInfo.accounts_decode fun _ => .pure _

theorem Chunk.decoder_eq_ofExcept :
    decoder = (do
      let header ← Header.decode
      ofExcept header.validate
      let upvalueCount ← Decoder.byte
      let main ← Prototype.decode header (Prototype.nestingLimit + 1) none
      return { header, upvalueCount, main }) := by
  unfold decoder
  congr 1
  funext header
  cases header.validate <;> rfl

theorem Chunk.accounts_decoder : Accounts decoderAccounted decoder := by
  rw [decoder_eq_ofExcept]
  exact .bind (.plain _) fun header => .bind (.plain _) fun _ => .bind (.plain _) fun _ =>
    .bind (Prototype.accounts_decode header _ none) fun _ => .pure _

/-- **What is read is no larger than its image.** If an image can be read, it has 32 bytes for the
header and the number of upvalues and, for each function, at least the bytes that its parts take
up; so there are at most as many functions as the rest of the image has room for. And whether or
not it can be read, the decoder asks for space for no more elements than bytes are left when it
does so. -/
theorem Chunk.no_larger_than_image (image : Bytes) :
    (∀ chunk, decode image = .ok chunk →
      32 + chunk.main.sumOver Prototype.leastSize ≤ image.length ∧
      chunk.main.total ≤ (image.length - 32) / 14) ∧
    ∃ made, decoderAccounted ⟨.start image, []⟩ = withLedger made (decoder (.start image)) ∧
      ∀ r ∈ made, r.count ≤ r.left := by
  refine ⟨?_, accounts_decoder ⟨.start image, []⟩⟩
  intro chunk h
  have hsum := sumOver_le_of_decode h
  have htotal : chunk.main.total * 14 ≤ chunk.main.sumOver Prototype.leastSize :=
    Prototype.total_mul_le (fun p => by unfold Prototype.leastSize; omega) chunk.main
  exact ⟨hsum, by omega⟩

/-- A function with nothing in it but another one. -/
def Chunk.tight : Chunk := .ofMain { protos := [{}] }

def Chunk.tightImage : Bytes :=
  Format.header ++
    [0x00, 0x80, 0x80, 0x80, 0x00, 0x00, 0x02, 0x80, 0x80, 0x80, 0x81,
     0x80, 0x80, 0x80, 0x00, 0x00, 0x02, 0x80, 0x80, 0x80, 0x80, 0x80, 0x80, 0x80, 0x80,
     0x80, 0x80, 0x80, 0x80]

/-- There is no better bound. The image that is cut off inside the second function shows the space
that was asked for until then. -/
theorem Chunk.no_larger_than_image_tight :
    decode tightImage = .ok tight ∧
    32 + tight.main.sumOver Prototype.leastSize ≤ tightImage.length ∧
    tight.main.total ≤ (tightImage.length - 32) / 14 ∧
    tightImage.length ≤ 32 + tight.main.sumOver Prototype.leastSize ∧
    (tightImage.length - 32) / 14 ≤ tight.main.total ∧
    decoderAccounted ⟨.start (tightImage.take 46), []⟩
      = .error (.truncated 46 1 0) ⟨⟨46, []⟩, [⟨0, 7⟩, ⟨0, 6⟩, ⟨0, 5⟩, ⟨1, 4⟩]⟩ := by
  have hdecode : decode tightImage = .ok tight := rfl
  obtain ⟨hsum, htotal⟩ := (no_larger_than_image tightImage).1 tight hdecode
  exact ⟨hdecode, hsum, htotal, by decide, by decide, by cbv⟩

end LuaBytecode
