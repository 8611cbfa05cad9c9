import Mathlib
import LuaBytecode.Proofs.ListingSums

/-! # Lines of instructions

The lines of the instructions of a function are stored as differences of a byte each. Where a
line is too far from the one before, or every now and then, it is stored in full as well, and
the byte says nothing.

To find a line, the differences from the nearest checkpoint on are added up, or all of them
from the line of the definition on. The first difference behind a checkpoint is the one of the
next instruction; without a checkpoint it is the one of the first. In both cases the sum starts
from the line in front of the first difference, and no byte of a checkpoint is part of it. So the
sums run through the lines themselves, and none of them leaves its word.
-/

namespace LuaBytecode

theorem toInt_toInt64_of_lt {x : UInt64} (h : x.toNat < 2 ^ 63) : x.toInt64.toInt = x.toNat := by
  have hbits : x.toInt64.toInt = x.toBitVec.toInt := rfl
  rw [hbits, BitVec.toInt_eq_toNat_of_lt (Nat.mul_lt_mul_of_pos_left h Nat.two_pos),
    UInt64.toNat_toBitVec]

namespace Prototype

variable {p : Prototype} {lines : List Nat} {pc : Nat}

/-! ## Stored lines -/

/-- The line in front of that of the instruction at `pc`: the one of the instruction before, or
that of the definition. -/
def lineBefore (p : Prototype) (lines : List Nat) : (pc : Nat) → Nat
  | 0 => p.lineDefined.toNat
  | pc + 1 => lines.getD pc 0

/-- The prototype stores these lines of its instructions. At a checkpoint the line is stored in
full, and the byte may be any. -/
structure StoresLines (p : Prototype) (lines : List Nat) : Prop where
  length : p.debug.lineDeltas.length = lines.length
  definition : p.lineDefined.toNat < 2 ^ 63
  bounded : ∀ line ∈ lines, line < 2 ^ 63
  sorted : p.debug.checkpoints.Pairwise fun c d => c.pc < d.pc
  checkpoints : ∀ c ∈ p.debug.checkpoints, lines[c.pc.toNat]? = some c.line.toNat
  deltas : ∀ pc < lines.length, (∀ c ∈ p.debug.checkpoints, c.pc.toNat ≠ pc) →
    ∀ b ∈ p.debug.lineDeltas[pc]?,
      b.toInt8.toInt = p.lineBefore lines (pc + 1) - p.lineBefore lines pc

namespace StoresLines

theorem lineBefore_lt (h : p.StoresLines lines) (pc : Nat) : p.lineBefore lines pc < 2 ^ 63 := by
  cases pc with
  | zero => exact h.definition
  | succ pc =>
      rw [lineBefore, List.getD_eq_getElem?_getD]
      cases hline : lines[pc]? with
      | none => exact Nat.two_pow_pos 63
      | some line => exact h.bounded line (List.mem_of_getElem? hline)

end StoresLines

/-! ## Where the sum starts -/

/-- Among checkpoints in order, none lies between the last one that is found and `pc`. -/
theorem exists_getLast?_takeWhile {cs : List LineCheckpoint}
    (hsorted : cs.Pairwise fun c d => c.pc < d.pc) {c : LineCheckpoint} (hc : c ∈ cs)
    (hle : c.pc.toNat ≤ pc) :
    ∃ d, (cs.takeWhile (·.pc.toNat ≤ pc)).getLast? = some d ∧ c.pc.toNat ≤ d.pc.toNat := by
  induction cs with
  | nil => cases hc
  | cons first rest ih =>
      obtain ⟨hfirst, hrest⟩ := List.pairwise_cons.mp hsorted
      have hnext : ∀ d ∈ rest, first.pc.toNat < d.pc.toNat := fun d hd =>
        UInt64.lt_iff_toNat_lt.mp (hfirst d hd)
      have hreached : first.pc.toNat ≤ pc := by
        rcases List.mem_cons.mp hc with rfl | hmem
        · exact hle
        · exact (hnext c hmem).le.trans hle
      rw [List.takeWhile_cons_of_pos (by simpa using hreached), List.getLast?_cons]
      refine ⟨_, rfl, ?_⟩
      rcases List.mem_cons.mp hc with rfl | hmem
      · cases hlast : (rest.takeWhile (·.pc.toNat ≤ pc)).getLast? with
        | none => exact Nat.le_refl _
        | some d =>
            exact (hnext d ((List.takeWhile_sublist _).mem (List.mem_of_getLast? hlast))).le
      · obtain ⟨d, hd, hcd⟩ := ih hrest hmem
        rw [hd]
        exact hcd

/-- The sum starts from the line in front of its first difference, and the differences that it
adds belong to no checkpoints. -/
theorem StoresLines.lineBase (h : p.StoresLines lines) (pc : Nat) :
    (p.lineBase pc).1.toInt = p.lineBefore lines (p.lineBase pc).2 ∧
    ∀ c ∈ p.debug.checkpoints, c.pc.toNat ≤ pc → c.pc.toNat < (p.lineBase pc).2 := by
  unfold Prototype.lineBase
  cases hbefore : p.checkpointBefore? pc with
  | none =>
      refine ⟨?_, ?_⟩
      · rw [toInt_toInt64_of_lt h.definition, lineBefore]
      · intro c hc hle
        obtain ⟨d, hd, -⟩ := exists_getLast?_takeWhile h.sorted hc hle
        cases hbefore.symm.trans hd
  | some d =>
      refine ⟨?_, ?_⟩
      · have hd : d ∈ p.debug.checkpoints :=
          (List.takeWhile_sublist _).mem (List.mem_of_getLast? hbefore)
        have hline := h.checkpoints d hd
        rw [toInt_toInt64_of_lt (h.bounded _ (List.mem_of_getElem? hline)), lineBefore,
          List.getD_eq_getElem?_getD, hline, Option.getD_some]
      · intro c hc hle
        obtain ⟨last, hlast, hcl⟩ := exists_getLast?_takeWhile h.sorted hc hle
        cases hbefore.symm.trans hlast
        exact Nat.lt_succ_of_le hcl

/-! ## Sums -/

/-- The sum up to some place is the line in front of it. -/
theorem StoresLines.lineTotal_eq (h : p.StoresLines lines) (hpc : pc < lines.length) {stop : Nat}
    (hstart : (p.lineBase pc).2 ≤ stop) (hstop : stop ≤ pc + 1) :
    lineTotal (p.lineBase pc).1 ((p.debug.lineDeltas.take stop).drop (p.lineBase pc).2)
      = p.lineBefore lines stop := by
  obtain ⟨hbase, hplain⟩ := h.lineBase pc
  -- one difference after the other, from the line that the sum starts with
  induction stop, hstart using Nat.le_induction with
  | base =>
      have hnone : (p.debug.lineDeltas.take (p.lineBase pc).2).drop (p.lineBase pc).2 = [] :=
        List.drop_eq_nil_of_le (List.length_take_le _ _)
      rw [hnone, ← hbase]
      simp [lineTotal]
  | succ stop hstart ih =>
      have hlt : stop < p.debug.lineDeltas.length := by
        rw [h.length]
        omega
      have hnext := h.deltas stop (by omega)
        (fun c hc heq => absurd (hplain c hc (by omega)) (by omega)) _
        (List.getElem?_eq_getElem hlt)
      have hdelta : (delta p.debug.lineDeltas[stop]).toInt
          = p.lineBefore lines (stop + 1) - p.lineBefore lines stop := by
        rw [← hnext, delta, Int8.toInt_toInt64]
      have hlength : (p.debug.lineDeltas.take stop).length = stop := by
        rw [List.length_take]
        omega
      rw [← List.take_append_getElem hlt, List.drop_append_of_le_length (hlength.symm ▸ hstart),
        lineTotal_concat, ih (by omega), hdelta]
      omega

theorem length_deltasTo (hpc : pc < p.debug.lineDeltas.length) :
    (p.deltasTo pc).length = pc + 1 - (p.lineBase pc).2 := by
  rw [deltasTo, List.length_drop, List.length_take]
  omega

/-- No sum on the way to a stored line leaves its word. -/
theorem StoresLines.lineExact (h : p.StoresLines lines) (hpc : pc < lines.length) :
    p.LineExact pc := by
  rw [lineExact_iff]
  intro before hbefore
  have hcount := hbefore.length_le
  rw [length_deltasTo (h.length ▸ hpc)] at hcount
  have hle := p.lineBase_le pc
  have hpart : before
      = (p.debug.lineDeltas.take ((p.lineBase pc).2 + before.length)).drop (p.lineBase pc).2 :=
    calc before = (p.deltasTo pc).take before.length := List.prefix_iff_eq_take.mp hbefore
      _ = _ := by rw [deltasTo, List.take_drop, List.take_take, Nat.min_eq_left (by omega)]
  rw [hpart, h.lineTotal_eq hpc (Nat.le_add_right _ _) (by omega)]
  have hlt := h.lineBefore_lt ((p.lineBase pc).2 + before.length)
  exact ⟨by omega, by omega⟩

theorem lineAt?_eq_none_iff : p.lineAt? pc = none ↔ p.debug.lineDeltas.length ≤ pc := by
  unfold lineAt?
  split <;> simp_all

/-- **Lines come back.** There is a line for an instruction just when there is a byte for it, and
the differences that are added up are a slice of those there are. If the prototype stores the lines
of its instructions, as differences and at checkpoints, wherever these are, then the line that is
found for an instruction is its own, and no sum on the way to it leaves its word. -/
theorem lines_reconstructed (p : Prototype) :
    (∀ pc, p.lineAt? pc = none ↔ p.debug.lineDeltas.length ≤ pc) ∧
    (∀ pc < p.debug.lineDeltas.length, (p.lineBase pc).2 ≤ pc + 1 ∧
      (p.lineBase pc).2 + (p.deltasTo pc).length = pc + 1) ∧
    ∀ lines, p.StoresLines lines → ∀ pc (line : Nat), lines[pc]? = some line →
      p.LineExact pc ∧ ∃ found, p.lineAt? pc = some found ∧ found.toInt = line := by
  refine ⟨fun pc => lineAt?_eq_none_iff, ?_, ?_⟩
  · intro pc hpc
    have hle := p.lineBase_le pc
    have hlength := length_deltasTo hpc
    exact ⟨hle, by omega⟩
  · intro lines h pc line hline
    have hpc : pc < lines.length := (List.getElem?_eq_some_iff.mp hline).1
    have hexact := h.lineExact hpc
    refine ⟨hexact, _, if_neg (by rw [h.length]; omega), ?_⟩
    rw [hexact.toInt_addDeltas _ (List.prefix_refl _), deltasTo,
      h.lineTotal_eq hpc (p.lineBase_le pc) (Nat.le_refl _), lineBefore,
      List.getD_eq_getElem?_getD, hline, Option.getD_some]

/-- Lines far from each other, with checkpoints next to each other, a difference that looks like
the mark of a checkpoint, and lines at the end of what words can hold. -/
def leaps : Prototype where
  lineDefined := 10
  debug :=
    { lineDeltas := [0x01, 0x00, 0x80, 0x80, 0x7f, 0x80, 0x05, 0xff, 0x01]
      checkpoints := [⟨2, 300⟩, ⟨5, 7⟩, ⟨6, 0x7fffffffffffffff⟩] }

def leapLines : List Nat :=
  [11, 11, 300, 172, 299, 7, 0x7fffffffffffffff, 0x7ffffffffffffffe, 0x7fffffffffffffff]

theorem lines_reconstructed_leaps :
    leaps.StoresLines leapLines ∧
    ∀ pc (line : Nat), leapLines[pc]? = some line →
      leaps.LineExact pc ∧ ∃ found, leaps.lineAt? pc = some found ∧ found.toInt = line :=
  have hstores : leaps.StoresLines leapLines :=
    ⟨by decide, by decide, by decide, by decide, by decide, by decide +kernel⟩
  ⟨hstores, leaps.lines_reconstructed.2.2 leapLines hstores⟩

end Prototype

end LuaBytecode
