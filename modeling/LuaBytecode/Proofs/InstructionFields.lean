import Mathlib
import LuaBytecode.Instruction

/-! # Words and their fields

The five layouts divide the same 32 bits, and the later ones only put fields together: Bx is k, B
and C, and Ax is A and Bx. So a word is its operation number and Ax, and what is known about these
is carried over to the smaller fields.

A signed field is stored with an offset that makes it a number without a sign. Both the sum and
the difference stay within 32 bits.
-/

namespace LuaBytecode

/-! ## Operation numbers -/

namespace Opcode

theorem number_lt (op : Opcode) : op.number < 83 := by
  cases op <;> decide

theorem map_number_all : all.map number = List.range 83 := by decide

theorem ofNumber?_eq_some_iff {n : Nat} {op : Opcode} : ofNumber? n = some op ↔ op.number = n := by
  constructor
  · intro h
    -- the list is in the order of the numbers, so they can be read off the places
    have hn : (all.map number)[n]? = some op.number := by
      rw [List.getElem?_map, show all[n]? = some op from h, Option.map_some]
    rw [map_number_all, List.getElem?_eq_some_iff] at hn
    obtain ⟨_, hn⟩ := hn
    rw [← hn, List.getElem_range]
  · rintro rfl
    cases op <;> rfl

end Opcode

namespace Instruction

/-! ## Fields next to each other -/

theorem field_eq (i : Instruction) (low width : Nat) :
    i.field low width = i.word.toNat / 2 ^ low % 2 ^ width := by
  rw [field, Nat.shiftRight_eq_div_pow, Nat.one_shiftLeft]

theorem field_lt (i : Instruction) (low width : Nat) : i.field low width < 2 ^ width := by
  rw [field_eq]
  exact Nat.mod_lt _ (Nat.two_pow_pos width)

/-- Two fields next to each other are one. -/
theorem field_add (i : Instruction) (low m n : Nat) :
    i.field low (m + n) = i.field low m + 2 ^ m * i.field (low + m) n := by
  rw [field_eq, field_eq, field_eq, Nat.pow_add, Nat.mod_mul, Nat.div_div_eq_div_mul,
    ← Nat.pow_add]

theorem field_zero_32 (i : Instruction) : i.field 0 32 = i.word.toNat := by
  rw [field_eq, Nat.pow_zero, Nat.div_one]
  exact Nat.mod_eq_of_lt i.word.toNat_lt

theorem toNat_ofNat_field (i : Instruction) (low : Nat) :
    (UInt8.ofNat (i.field low 8)).toNat = i.field low 8 :=
  UInt8.toNat_ofNat_of_lt' (i.field_lt low 8)

theorem toNat_k (i : Instruction) : i.k.toNat = i.field 15 1 := by
  have hlt : i.field 15 1 < 2 := i.field_lt 15 1
  rw [k]
  interval_cases i.field 15 1 <;> rfl

theorem bx_eq (i : Instruction) : i.bx = i.k.toNat + 2 * (i.b.toNat + 256 * i.c.toNat) := by
  rw [toNat_k, b, c, toNat_ofNat_field, toNat_ofNat_field]
  calc i.bx = i.field 15 1 + 2 * i.field 16 16 := i.field_add 15 1 16
    _ = i.field 15 1 + 2 * (i.field 16 8 + 256 * i.field 24 8) := by
        rw [show i.field 16 16 = i.field 16 8 + 256 * i.field 24 8 from i.field_add 16 8 8]

theorem ax_eq (i : Instruction) : i.ax = i.a.toNat + 256 * i.bx := by
  rw [a, toNat_ofNat_field]
  exact i.field_add 7 8 17

theorem word_eq (i : Instruction) : i.word.toNat = i.opcodeNumber + 2 ^ 7 * i.ax :=
  i.field_zero_32.symm.trans (i.field_add 0 7 25)

theorem opcodeNumber_lt (i : Instruction) : i.opcodeNumber < 2 ^ 7 := i.field_lt 0 7

theorem bx_lt (i : Instruction) : i.bx < 2 ^ 17 := i.field_lt 15 17

theorem ax_lt (i : Instruction) : i.ax < 2 ^ 25 := i.field_lt 7 25

/-! ## Words that are built -/

/-- The parts fit into the word: nothing is lost beyond bit 31. -/
theorem toNat_word_ofAx (op : Opcode) {ax : Nat} (hax : ax < 2 ^ 25) :
    (ofAx op ax).word.toNat = op.number + 2 ^ 7 * ax := by
  have hop := op.number_lt
  have hsum : op.number + (ax % (1 <<< 25)) <<< 7 = op.number + 2 ^ 7 * ax := by
    rw [Nat.one_shiftLeft, Nat.mod_eq_of_lt hax, Nat.shiftLeft_eq, Nat.mul_comm]
  rw [ofAx, hsum]
  exact UInt32.toNat_ofNat_of_lt' (show _ < 4294967296 by omega)

theorem ofABx_eq_ofAx (op : Opcode) (a : UInt8) {bx : Nat} (hbx : bx < 2 ^ 17) :
    ofABx op a bx = ofAx op (a.toNat + 256 * bx) := by
  have ha : a.toNat < 256 := a.toNat_lt
  have hax : a.toNat + 256 * bx < 2 ^ 25 := by omega
  have hsum : op.number + a.toNat <<< 7 + (bx % (1 <<< 17)) <<< 15
      = op.number + ((a.toNat + 256 * bx) % (1 <<< 25)) <<< 7 := by
    rw [Nat.one_shiftLeft, Nat.one_shiftLeft, Nat.mod_eq_of_lt hbx, Nat.mod_eq_of_lt hax]
    simp only [Nat.shiftLeft_eq]
    omega
  rw [ofABx, ofAx, hsum]

/-- k, B and C take up no more than Bx. -/
theorem stored_lt (b c : UInt8) (k : Bool) : k.toNat + 2 * (b.toNat + 256 * c.toNat) < 2 ^ 17 := by
  have hb : b.toNat < 256 := b.toNat_lt
  have hc : c.toNat < 256 := c.toNat_lt
  have hk := k.toNat_lt
  omega

theorem ofABC_eq_ofABx (op : Opcode) (a b c : UInt8) (k : Bool) :
    ofABC op a b c k = ofABx op a (k.toNat + 2 * (b.toNat + 256 * c.toNat)) := by
  have hsum : op.number + a.toNat <<< 7 + k.toNat <<< 15 + b.toNat <<< 16 + c.toNat <<< 24
      = op.number + a.toNat <<< 7
        + ((k.toNat + 2 * (b.toNat + 256 * c.toNat)) % (1 <<< 17)) <<< 15 := by
    rw [Nat.one_shiftLeft, Nat.mod_eq_of_lt (stored_lt b c k)]
    simp only [Nat.shiftLeft_eq]
    omega
  rw [ofABC, ofABx, hsum]

theorem toNat_word_ofABx (op : Opcode) (a : UInt8) {bx : Nat} (hbx : bx < 2 ^ 17) :
    (ofABx op a bx).word.toNat = op.number + 2 ^ 7 * a.toNat + 2 ^ 15 * bx := by
  have ha : a.toNat < 256 := a.toNat_lt
  rw [ofABx_eq_ofAx op a hbx, toNat_word_ofAx op (by omega)]
  omega

theorem toNat_word_ofABC (op : Opcode) (a b c : UInt8) (k : Bool) :
    (ofABC op a b c k).word.toNat
      = op.number + 2 ^ 7 * a.toNat + 2 ^ 15 * k.toNat + 2 ^ 16 * b.toNat + 2 ^ 24 * c.toNat := by
  rw [ofABC_eq_ofABx, toNat_word_ofABx op a (stored_lt b c k)]
  omega

/-! ## The fields of a word that is built -/

theorem fields_ofAx (op : Opcode) {ax : Nat} (hax : ax < 2 ^ 25) :
    (ofAx op ax).opcode? = some op ∧ (ofAx op ax).ax = ax := by
  have hop := op.number_lt
  have hlt := (ofAx op ax).opcodeNumber_lt
  have hword := (ofAx op ax).word_eq
  rw [toNat_word_ofAx op hax] at hword
  exact ⟨Opcode.ofNumber?_eq_some_iff.mpr (by omega), by omega⟩

theorem fields_ofABx (op : Opcode) (a : UInt8) {bx : Nat} (hbx : bx < 2 ^ 17) :
    (ofABx op a bx).opcode? = some op ∧ (ofABx op a bx).a = a ∧ (ofABx op a bx).bx = bx := by
  have ha : a.toNat < 256 := a.toNat_lt
  have hlt : a.toNat + 256 * bx < 2 ^ 25 := by omega
  obtain ⟨hop, hax⟩ := fields_ofAx op hlt
  rw [← ofABx_eq_ofAx op a hbx] at hop hax
  -- A is what Ax leaves when it is divided by 256, and Bx is the quotient
  rw [ax_eq] at hax
  have ha' : (ofABx op a bx).a.toNat < 256 := UInt8.toNat_lt _
  exact ⟨hop, UInt8.toNat_inj.mp (by omega), by omega⟩

theorem fields_ofABC (op : Opcode) (a b c : UInt8) (k : Bool) :
    (ofABC op a b c k).opcode? = some op ∧ (ofABC op a b c k).a = a ∧
      (ofABC op a b c k).b = b ∧ (ofABC op a b c k).c = c ∧ (ofABC op a b c k).k = k := by
  obtain ⟨hop, ha, hbx⟩ := fields_ofABx op a (stored_lt b c k)
  rw [← ofABC_eq_ofABx] at hop ha hbx
  rw [bx_eq] at hbx
  have hb : b.toNat < 256 := b.toNat_lt
  have hk := k.toNat_lt
  have hb' : (ofABC op a b c k).b.toNat < 256 := UInt8.toNat_lt _
  have hk' := (ofABC op a b c k).k.toNat_lt
  exact ⟨hop, ha, UInt8.toNat_inj.mp (by omega), UInt8.toNat_inj.mp (by omega),
    Function.LeftInverse.injective Bool.ofNat_toNat (by omega)⟩

/-! ## A word from its own fields -/

section

variable {i : Instruction} {op : Opcode}

theorem ofAx_self (h : i.opcode? = some op) : ofAx op i.ax = i := by
  have hword : (ofAx op i.ax).word = i.word := by
    apply UInt32.toNat_inj.mp
    rw [toNat_word_ofAx op i.ax_lt, i.word_eq, Opcode.ofNumber?_eq_some_iff.mp h]
  exact congrArg mk hword

theorem ofABx_self (h : i.opcode? = some op) : ofABx op i.a i.bx = i := by
  rw [ofABx_eq_ofAx op i.a i.bx_lt, ← ax_eq]
  exact ofAx_self h

theorem ofABC_self (h : i.opcode? = some op) : ofABC op i.a i.b i.c i.k = i := by
  rw [ofABC_eq_ofABx, ← bx_eq]
  exact ofABx_self h

theorem ofAsBx_self (h : i.opcode? = some op) : ofAsBx op i.a i.sbx = i := by
  have hstored : (i.sbx + sbxOffset).toNat = i.bx := by
    unfold sbx
    omega
  rw [ofAsBx, hstored]
  exact ofABx_self h

theorem ofSJ_self (h : i.opcode? = some op) : ofSJ op i.sj = i := by
  have hstored : (i.sj + sjOffset).toNat = i.ax := by
    unfold sj
    omega
  rw [ofSJ, hstored]
  exact ofAx_self h

end

/-! ## Signed fields in 32 bits -/

/-- In 32 bits, the offset is added to the operand without overflow, the sum is not negative and so
the number that is stored, and from that the offset is taken off again without overflow. -/
structure OffsetExact (offset operand : Int) (stored : Nat) : Prop where
  add : (Int32.ofInt operand + Int32.ofInt offset).toInt = operand + offset
  cast : (Int32.ofInt operand + Int32.ofInt offset).toUInt32.toNat = stored
  sub : ((UInt32.ofNat stored).toInt32 - Int32.ofInt offset).toInt = operand

theorem offsetExact {offset : Int} {stored : Nat} (hoffset : 0 ≤ offset) (hlt : offset < 2 ^ 31)
    (hstored : stored < 2 ^ 31) : OffsetExact offset (stored - offset) stored := by
  have hoffset' : (Int32.ofInt offset).toInt = offset :=
    Int32.toInt_ofInt_of_le (by omega) (by omega)
  have hoperand : (Int32.ofInt (stored - offset)).toInt = stored - offset :=
    Int32.toInt_ofInt_of_le (by omega) (by omega)
  have hnat : (Int32.ofNat stored).toInt = stored := Int32.toInt_ofNat_of_lt hstored
  have hsum : Int32.ofInt (stored - offset) + Int32.ofInt offset = Int32.ofNat stored := by
    apply Int32.toInt_inj.mp
    rw [Int32.toInt_add, hoperand, hoffset', hnat, Int.sub_add_cancel]
    exact Int.bmod_eq_of_le (by omega) (by omega)
  refine ⟨?_, ?_, ?_⟩
  · rw [hsum, hnat, Int.sub_add_cancel]
  · rw [hsum, Int32.toUInt32_ofNat']
    exact UInt32.toNat_ofNat_of_lt' (show _ < 4294967296 by omega)
  · rw [UInt32.toInt32_ofNat', Int32.toInt_sub, hnat, hoffset']
    exact Int.bmod_eq_of_le (by omega) (by omega)

theorem offsetExact_sbx (i : Instruction) : OffsetExact sbxOffset i.sbx i.bx :=
  offsetExact (by decide) (by decide) (i.bx_lt.trans (by decide))

theorem offsetExact_sj (i : Instruction) : OffsetExact sjOffset i.sj i.ax :=
  offsetExact (by decide) (by decide) (i.ax_lt.trans (by decide))

theorem fields_ofAsBx (op : Opcode) (a : UInt8) {sbx : Int} (hlow : -65535 ≤ sbx)
    (hhigh : sbx ≤ 65536) :
    (ofAsBx op a sbx).opcode? = some op ∧ (ofAsBx op a sbx).a = a ∧
      (ofAsBx op a sbx).sbx = sbx := by
  have hoffset : sbxOffset = 65535 := rfl
  have hlt : (sbx + sbxOffset).toNat < 2 ^ 17 := by omega
  obtain ⟨hop, ha, hbx⟩ := fields_ofABx op a hlt
  refine ⟨hop, ha, ?_⟩
  have hsbx : (ofAsBx op a sbx).sbx = (sbx + sbxOffset).toNat - sbxOffset :=
    congrArg (fun n : Nat => (n : Int) - sbxOffset) hbx
  omega

theorem fields_ofSJ (op : Opcode) {sj : Int} (hlow : -16777215 ≤ sj) (hhigh : sj ≤ 16777216) :
    (ofSJ op sj).opcode? = some op ∧ (ofSJ op sj).sj = sj := by
  have hoffset : sjOffset = 16777215 := rfl
  have hlt : (sj + sjOffset).toNat < 2 ^ 25 := by omega
  obtain ⟨hop, hax⟩ := fields_ofAx op hlt
  refine ⟨hop, ?_⟩
  have hsj : (ofSJ op sj).sj = (sj + sjOffset).toNat - sjOffset :=
    congrArg (fun n : Nat => (n : Int) - sjOffset) hax
  omega

/-- **Words and their fields determine each other.** A word with a known operation is built again
from its own fields, in each of the five layouts. And a word that is built of an operation and of
operands within the range of their fields gives back just these. Nothing overflows: a word is the
sum of its parts, and the offset of a signed field is added and taken off within 32 bits. -/
theorem fields_bijective (op : Opcode) :
    (∀ i : Instruction, i.opcode? = some op →
      (ofABC op i.a i.b i.c i.k = i ∧ ofABx op i.a i.bx = i ∧ ofAsBx op i.a i.sbx = i ∧
        ofAx op i.ax = i ∧ ofSJ op i.sj = i) ∧
      OffsetExact sbxOffset i.sbx i.bx ∧ OffsetExact sjOffset i.sj i.ax) ∧
    (∀ (a b c : UInt8) (k : Bool),
      ((ofABC op a b c k).opcode? = some op ∧ (ofABC op a b c k).a = a ∧
        (ofABC op a b c k).b = b ∧ (ofABC op a b c k).c = c ∧ (ofABC op a b c k).k = k) ∧
      (ofABC op a b c k).word.toNat = op.number + 2 ^ 7 * a.toNat + 2 ^ 15 * k.toNat
        + 2 ^ 16 * b.toNat + 2 ^ 24 * c.toNat) ∧
    (∀ (a : UInt8) (bx : Nat), bx < 2 ^ 17 →
      ((ofABx op a bx).opcode? = some op ∧ (ofABx op a bx).a = a ∧ (ofABx op a bx).bx = bx) ∧
      (ofABx op a bx).word.toNat = op.number + 2 ^ 7 * a.toNat + 2 ^ 15 * bx) ∧
    (∀ (a : UInt8) (sbx : Int), -65535 ≤ sbx → sbx ≤ 65536 →
      ((ofAsBx op a sbx).opcode? = some op ∧ (ofAsBx op a sbx).a = a ∧
        (ofAsBx op a sbx).sbx = sbx) ∧
      OffsetExact sbxOffset sbx (ofAsBx op a sbx).bx) ∧
    (∀ ax : Nat, ax < 2 ^ 25 →
      ((ofAx op ax).opcode? = some op ∧ (ofAx op ax).ax = ax) ∧
      (ofAx op ax).word.toNat = op.number + 2 ^ 7 * ax) ∧
    (∀ sj : Int, -16777215 ≤ sj → sj ≤ 16777216 →
      ((ofSJ op sj).opcode? = some op ∧ (ofSJ op sj).sj = sj) ∧
      OffsetExact sjOffset sj (ofSJ op sj).ax) := by
  refine ⟨fun i h => ⟨⟨ofABC_self h, ofABx_self h, ofAsBx_self h, ofAx_self h, ofSJ_self h⟩,
      i.offsetExact_sbx, i.offsetExact_sj⟩,
    fun a b c k => ⟨fields_ofABC op a b c k, toNat_word_ofABC op a b c k⟩,
    fun a bx h => ⟨fields_ofABx op a h, toNat_word_ofABx op a h⟩, fun a sbx hlow hhigh => ?_,
    fun ax h => ⟨fields_ofAx op h, toNat_word_ofAx op h⟩, fun sj hlow hhigh => ?_⟩
  · have hfields := fields_ofAsBx op a hlow hhigh
    have hexact := (ofAsBx op a sbx).offsetExact_sbx
    rw [hfields.2.2] at hexact
    exact ⟨hfields, hexact⟩
  · have hfields := fields_ofSJ op hlow hhigh
    have hexact := (ofSJ op sj).offsetExact_sj
    rw [hfields.2] at hexact
    exact ⟨hfields, hexact⟩

/-- Every operand at a limit of its field. -/
theorem fields_bijective_limits :
    ofABC .extraArg 255 255 255 true = ⟨0xFFFFFFD2⟩ ∧ ofSJ .extraArg 16777216 = ⟨0xFFFFFFD2⟩ ∧
    (ofABx .extraArg 0 131071).bx = 131071 ∧ (ofAx .extraArg 33554431).ax = 33554431 ∧
    (ofAsBx .extraArg 255 (-65535)).sbx = -65535 ∧ (ofAsBx .extraArg 255 65536).sbx = 65536 ∧
    (ofSJ .extraArg (-16777215)).sj = -16777215 := by
  obtain ⟨hself, -, hbx, hsbx, hax, hsj⟩ := fields_bijective .extraArg
  obtain ⟨⟨habc, -, -, -, hown⟩, -⟩ := hself ⟨0xFFFFFFD2⟩ (by decide)
  obtain ⟨⟨-, -, hlow⟩, -⟩ := hsbx 255 (-65535) (by decide) (by decide)
  obtain ⟨⟨-, -, hhigh⟩, -⟩ := hsbx 255 65536 (by decide) (by decide)
  obtain ⟨⟨-, -, hlargest⟩, -⟩ := hbx 0 131071 (by decide)
  obtain ⟨⟨-, hwidest⟩, -⟩ := hax 33554431 (by decide)
  obtain ⟨⟨-, hleast⟩, -⟩ := hsj (-16777215) (by decide) (by decide)
  exact ⟨habc, hown, hlargest, hwidest, hlow, hhigh, hleast⟩

end Instruction

end LuaBytecode
