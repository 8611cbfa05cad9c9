import Mathlib
import LuaBytecode.Listing
import LuaBytecode.Proofs.InstructionFields
import LuaBytecode.Proofs.Recognition

/-! # Sums in listings

A listing adds up numbers that come from an image: distances of jumps, differences of
lines, and the places where locals begin and end. The sums are words of 64 bits.

The distances of jumps take few bits, and code that can be read has fewer than `2 ^ 62`
instructions, so the targets of jumps are always exact. The slices of the differences lie
in bounds, as a checkpoint counts only where it does not lie behind the instruction. But
lines and the ranges of locals are whatever the image says, in all of 64 bits, and nothing
looks at them when they are read. So the sums made from them wrap around for some images;
they are exact as long as the true sums fit into a word.
-/

namespace LuaBytecode

/-! ## Words -/

/-- The number fits into a signed word. -/
def FitsInt64 (n : Int) : Prop := -2 ^ 63 ≤ n ∧ n < 2 ^ 63

instance (n : Int) : Decidable (FitsInt64 n) := inferInstanceAs (Decidable (_ ∧ _))

theorem fitsInt64_toInt (x : Int64) : FitsInt64 x.toInt := ⟨x.le_toInt, x.toInt_lt⟩

theorem toInt_add_of_fits {x y : Int64} {m n : Int} (hx : x.toInt = m) (hy : y.toInt = n)
    (hlow : -2 ^ 63 ≤ m + n) (hhigh : m + n < 2 ^ 63) : (x + y).toInt = m + n := by
  rw [Int64.toInt_add, hx, hy]
  exact Int.bmod_eq_of_le hlow hhigh

theorem toInt_sub_of_fits {x y : Int64} {m n : Int} (hx : x.toInt = m) (hy : y.toInt = n)
    (hlow : -2 ^ 63 ≤ m - n) (hhigh : m - n < 2 ^ 63) : (x - y).toInt = m - n := by
  rw [Int64.toInt_sub, hx, hy]
  exact Int.bmod_eq_of_le hlow hhigh

/-! ## Lines -/

namespace Prototype

/-- The listing looks for the line of the instruction at `pc` and finds one. -/
def HasLine (p : Prototype) (pc : Nat) : Prop :=
  pc < p.code.size ∧ pc < p.debug.lineDeltas.length

/-- For every line, the differences that make it up are a slice of those there are. -/
def SlicesInBounds (p : Prototype) : Prop :=
  ∀ pc, p.HasLine pc → (p.lineBase pc).2 ≤ pc + 1 ∧ pc + 1 ≤ p.debug.lineDeltas.length

theorem checkpointBefore?_le {p : Prototype} {pc : Nat} {c : LineCheckpoint}
    (h : p.checkpointBefore? pc = some c) : c.pc.toNat ≤ pc := by
  have hmem := List.mem_of_getLast? h
  simpa using List.mem_takeWhile_imp hmem

theorem lineBase_le (p : Prototype) (pc : Nat) : (p.lineBase pc).2 ≤ pc + 1 := by
  unfold lineBase
  cases hcheckpoint : p.checkpointBefore? pc with
  | none => exact Nat.zero_le _
  | some c => exact Nat.succ_le_succ (checkpointBefore?_le hcheckpoint)

theorem slicesInBounds (p : Prototype) : p.SlicesInBounds :=
  fun pc hline => ⟨p.lineBase_le pc, hline.2⟩

/-- Where the differences lead to, counted without bounds. -/
def lineTotal (line : Int64) (deltas : List UInt8) : Int :=
  line.toInt + (deltas.map fun d => (delta d).toInt).sum

/-- No sum on the way to the line of the instruction at `pc` wraps around. -/
def LineExact (p : Prototype) (pc : Nat) : Prop :=
  ∀ before d, before ++ [d] <+: p.deltasTo pc →
    (addDeltas (p.lineBase pc).1 (before ++ [d])).toInt
      = (addDeltas (p.lineBase pc).1 before).toInt + (delta d).toInt

theorem addDeltas_concat (line : Int64) (deltas : List UInt8) (d : UInt8) :
    addDeltas line (deltas ++ [d]) = addDeltas line deltas + delta d := by
  simp [addDeltas]

theorem lineTotal_concat (line : Int64) (deltas : List UInt8) (d : UInt8) :
    lineTotal line (deltas ++ [d]) = lineTotal line deltas + (delta d).toInt := by
  simp [lineTotal, Int.add_assoc]

/-- As long as no sum wraps around, the sums are the true ones. -/
theorem LineExact.toInt_addDeltas {p : Prototype} {pc : Nat} (h : p.LineExact pc)
    (before : List UInt8) (hbefore : before <+: p.deltasTo pc) :
    (addDeltas (p.lineBase pc).1 before).toInt = lineTotal (p.lineBase pc).1 before := by
  induction before using List.reverseRecOn with
  | nil => simp [addDeltas, lineTotal]
  | append_singleton before d ih =>
      rw [h before d hbefore, lineTotal_concat, ih ((List.prefix_append _ _).trans hbefore)]

theorem toInt_addDeltas_of_fits {line : Int64} {deltas : List UInt8}
    (h : ∀ before, before <+: deltas → FitsInt64 (lineTotal line before)) :
    (addDeltas line deltas).toInt = lineTotal line deltas := by
  induction deltas using List.reverseRecOn with
  | nil => simp [addDeltas, lineTotal]
  | append_singleton deltas d ih =>
      have hdeltas := ih fun before hbefore => h before (hbefore.trans (List.prefix_append _ _))
      obtain ⟨hlow, hhigh⟩ := h _ (List.prefix_refl _)
      rw [lineTotal_concat] at hlow hhigh
      rw [addDeltas_concat, lineTotal_concat]
      exact toInt_add_of_fits hdeltas rfl hlow hhigh

/-- The sums are exact if and only if all true sums fit into a word. -/
theorem lineExact_iff {p : Prototype} {pc : Nat} :
    p.LineExact pc ↔
      ∀ before, before <+: p.deltasTo pc → FitsInt64 (lineTotal (p.lineBase pc).1 before) := by
  constructor
  · intro h before hbefore
    rw [← h.toInt_addDeltas before hbefore]
    exact fitsInt64_toInt _
  · intro h before d hconcat
    have hbefore : before <+: p.deltasTo pc := (List.prefix_append _ _).trans hconcat
    rw [toInt_addDeltas_of_fits fun part hpart => h part (hpart.trans hconcat),
      toInt_addDeltas_of_fits fun part hpart => h part (hpart.trans hbefore), lineTotal_concat]

end Prototype

namespace Listing

/-! ## Locals -/

theorem toNat_countedFromOne_eq_iff {pc : UInt64} :
    (countedFromOne pc).toNat = pc.toNat + 1 ↔ pc.toNat + 1 < UInt64.size := by
  have hsum : (countedFromOne pc).toNat = (pc.toNat + 1) % UInt64.size := UInt64.toNat_add pc 1
  rw [hsum]
  exact Nat.mod_eq_iff_lt (by decide)

/-! ## Targets of jumps -/

/-- No sum on the way to the place that lies `n` after the instruction at `pc` wraps
around. -/
structure PlaceExact (pc : Nat) (distance : Int64) (n : Int) : Prop where
  reach : distance.toInt = n
  sum : (Int64.ofNat pc + distance).toInt = pc + n
  place : (place pc distance).toInt = pc + n + 1

/-- How far after an instruction its target lies. -/
def reach (i : Instruction) : Opcode → Int
  | .jmp => i.sj + 1
  | .forPrep => i.bx + 2
  | .forLoop => 1 - i.bx
  | _ => 0

/-- If the listing gives a target for the instruction at `pc`, it is the true one, and no sum
on the way to it wraps around. -/
def TargetExact (p : Prototype) (pc : Nat) (i : Instruction) (op : Opcode) : Prop :=
  ∀ target, annotation? p pc i op = some (.jump target) ∨
      annotation? p pc i op = some (.exit target) →
    ∃ distance, target = place pc distance ∧ PlaceExact pc distance (reach i op)

/-- The instructions that have a target. -/
theorem target_cases {p : Prototype} {pc : Nat} {i : Instruction} {op : Opcode} {target : Int64}
    (h : annotation? p pc i op = some (.jump target) ∨
      annotation? p pc i op = some (.exit target)) :
    (op = .jmp ∧ target = place pc (.ofInt i.sj + 1)) ∨
    (op = .forPrep ∧ target = place pc (.ofNat i.bx + 2)) ∨
    (op = .forLoop ∧ target = place pc (1 - .ofNat i.bx)) := by
  unfold annotation? at h
  split at h <;> simp_all

theorem placeExact_of_small {pc : Nat} {distance : Int64} {n : Int} (hpc : pc < 2 ^ 62)
    (hdistance : distance.toInt = n) (hlow : -2 ^ 25 ≤ n) (hhigh : n ≤ 2 ^ 25) :
    PlaceExact pc distance n := by
  have hpc' : (Int64.ofNat pc).toInt = pc := Int64.toInt_ofNat_of_lt (by omega)
  have hsum : (Int64.ofNat pc + distance).toInt = pc + n :=
    toInt_add_of_fits hpc' hdistance (by omega) (by omega)
  exact ⟨hdistance, hsum, toInt_add_of_fits hsum Int64.toInt_one (by omega) (by omega)⟩

end Listing

theorem Listing.targetExact {pc : Nat} (hpc : pc < 2 ^ 62) (p : Prototype) (i : Instruction)
    (op : Opcode) : TargetExact p pc i op := by
  have hbx := i.bx_lt
  have hax := i.ax_lt
  have hbx' : (Int64.ofNat i.bx).toInt = i.bx := Int64.toInt_ofNat_of_lt (by omega)
  intro target h
  rcases target_cases h with ⟨rfl, rfl⟩ | ⟨rfl, rfl⟩ | ⟨rfl, rfl⟩
  · have hsj : i.sj = i.ax - 16777215 := rfl
    have hsj' : (Int64.ofInt i.sj).toInt = i.sj :=
      Int64.toInt_ofInt_of_le (by omega) (by omega)
    have hreach := toInt_add_of_fits hsj' Int64.toInt_one (by omega) (by omega)
    have hplace := placeExact_of_small hpc hreach (by omega) (by omega)
    exact ⟨_, rfl, hplace⟩
  · have hreach := toInt_add_of_fits (y := 2) (n := 2) hbx' rfl (by omega) (by omega)
    have hplace := placeExact_of_small hpc hreach (by omega) (by omega)
    exact ⟨_, rfl, hplace⟩
  · have hreach := toInt_sub_of_fits Int64.toInt_one hbx' (by omega) (by omega)
    have hplace := placeExact_of_small hpc hreach (by omega) (by omega)
    exact ⟨_, rfl, hplace⟩

/-! ## Code that can be read -/

namespace Decoder

variable {α β : Type}

/-- All values that the decoder finds have the property. -/
def Yields (d : Decoder α) (P : α → Prop) : Prop :=
  ∀ (c c' : Cursor) (a : α), d c = .ok a c' → P a

theorem yields_any (d : Decoder α) : Yields d fun _ => True := fun _ _ _ _ => trivial

theorem Yields.bind {d : Decoder α} {k : α → Decoder β} {P : α → Prop} {Q : β → Prop}
    (hd : Yields d P) (hk : ∀ a, P a → Yields (k a) Q) : Yields (d >>= k) Q := by
  intro c c' b h
  obtain ⟨a, c₁, ha, hb⟩ := bind_eq_ok_iff.mp h
  exact hk a (hd c c₁ a ha) c₁ c' b hb

theorem yields_pure {P : α → Prop} {a : α} (h : P a) : Yields (pure a) P := by
  intro c c' b hb
  cases hb
  exact h

theorem Yields.times {d : Decoder α} {P : α → Prop} (hd : Yields d P) (n : Nat) :
    Yields (times n d) fun xs => ∀ x ∈ xs, P x := by
  induction n with
  | zero => exact yields_pure fun _ hx => absurd hx List.not_mem_nil
  | succ n ih =>
      exact hd.bind fun head hhead => ih.bind fun tail htail =>
        yields_pure (List.forall_mem_cons.mpr ⟨hhead, htail⟩)

theorem Yields.counted {d : Decoder α} {P : α → Prop} (hd : Yields d P) :
    Yields (counted d) fun xs => ∀ x ∈ xs, P x :=
  (yields_any _).bind fun n _ => hd.times n

/-- What is read in one go has no more bytes than a word can count. -/
theorem yields_array [FixedWidth α] (n : Nat) :
    Yields (array α n) fun xs => xs.length * FixedWidth.width α ≤ sizeLimit := by
  unfold array
  dsimp only
  split
  · next hsize =>
      refine (yields_any _).bind fun bytes _ => yields_pure ?_
      rwa [FixedWidth.length_decodeList]
  · exact nofun

end Decoder

open Decoder in
theorem Prototype.yields_decode (h : Header) (levels : Nat) (enclosing : Option String) :
    Yields (decode h levels enclosing) (Everywhere fun p => p.code.size < 2 ^ 62) := by
  induction levels generalizing enclosing with
  | zero => exact nofun
  | succ levels ih =>
      refine (yields_any _).bind fun stored _ => (yields_any _).bind fun lineDefined _ =>
        (yields_any _).bind fun lastLineDefined _ => (yields_any _).bind fun paramCount _ =>
        (yields_any _).bind fun varargFlag _ => (yields_any _).bind fun stackSize _ =>
        (yields_any _).bind fun codeCount _ => (yields_array codeCount).bind fun code hcode =>
        (yields_any _).bind fun constants _ => (yields_any _).bind fun upvalues _ =>
        (ih _).counted.bind fun protos hprotos => (yields_any _).bind fun debug _ =>
        yields_pure (.intro ?_ hprotos)
      have hcode' : code.length * 4 ≤ 2 ^ 64 - 1 := hcode
      show code.toArray.size < 2 ^ 62
      rw [List.size_toArray]
      omega

open Decoder in
theorem Chunk.yields_decoder :
    Yields decoder fun chunk => chunk.main.Everywhere fun p => p.code.size < 2 ^ 62 := by
  refine (yields_any _).bind fun header _ => ?_
  split
  · exact nofun
  · exact (yields_any _).bind fun upvalueCount _ =>
      (Prototype.yields_decode header _ none).bind fun main hmain => yields_pure hmain

theorem Chunk.code_size_of_decode {image : Bytes} {chunk : Chunk} (h : decode image = .ok chunk) :
    chunk.main.Everywhere fun p => p.code.size < 2 ^ 62 := by
  unfold decode at h
  split at h
  · next hread =>
      cases h
      exact yields_decoder _ _ _ hread
  · cases h

/-! ## Listings of what can be read -/

open Listing in
/-- What becomes of the numbers in the listing of a function. -/
structure Listing.WithinWords (p : Prototype) : Prop where
  slices : p.SlicesInBounds
  targets : ∀ pc i op, p.code[pc]? = some i → i.opcode? = some op → TargetExact p pc i op
  starts : ∀ v ∈ p.debug.locals,
    (countedFromOne v.startPc).toNat = v.startPc.toNat + 1 ↔ v.startPc.toNat + 1 < UInt64.size
  ends : ∀ v ∈ p.debug.locals,
    (countedFromOne v.endPc).toNat = v.endPc.toNat + 1 ↔ v.endPc.toNat + 1 < UInt64.size
  lines : ∀ pc, p.LineExact pc ↔
    ∀ before, before <+: p.deltasTo pc → FitsInt64 (Prototype.lineTotal (p.lineBase pc).1 before)

/-- A chunk at the limits of what words can hold: its only instruction jumps back as far as
can be, one line after the last line there is, and its local ends at the last place. -/
def Chunk.remote : Chunk where
  header := .canonical
  upvalueCount := 0
  main :=
    { lineDefined := 0x7fffffffffffffff
      code := #[⟨0x38⟩]
      debug :=
        { lineDeltas := [1]
          locals := [⟨"x", 0xffffffffffffffff, 0xffffffffffffffff⟩] } }

def Chunk.remoteImage : Bytes :=
  Format.header ++
    [0x00, 0x80, 0x7f, 0x7f, 0x7f, 0x7f, 0x7f, 0x7f, 0x7f, 0x7f, 0xff, 0x80, 0x00, 0x00, 0x02,
     0x81, 0x38, 0x00, 0x00, 0x00, 0x80, 0x80, 0x80, 0x81, 0x01, 0x80, 0x81, 0x82, 0x78,
     0x01, 0x7f, 0x7f, 0x7f, 0x7f, 0x7f, 0x7f, 0x7f, 0x7f, 0xff,
     0x01, 0x7f, 0x7f, 0x7f, 0x7f, 0x7f, 0x7f, 0x7f, 0x7f, 0xff, 0x80]

end LuaBytecode
