import Mathlib
import LuaBytecode.Proofs.Prefix

/-! # Headers byte by byte

A header is read from 31 bytes and written as the same bytes, and it is checked field by field.
One of the words that it is read as holds three of the fields. The fields lie next to each other
in the order in which they are checked, and each of them is as it should be just when its bytes
are. So a header passes just when all of its bytes are those of the canonical one, and otherwise
the field that is named is the one with the first byte that is not.
-/

namespace LuaBytecode

/-! ## Reading a known number of bytes -/

/-- The cursor `n` bytes further. -/
def Cursor.advance (c : Cursor) (n : Nat) : Cursor := ⟨c.position + n, c.rest.drop n⟩

theorem Cursor.remaining_advance (c : Cursor) (n : Nat) :
    (c.advance n).remaining = c.remaining - n := List.length_drop

theorem Cursor.advance_advance (c : Cursor) (m n : Nat) :
    (c.advance m).advance n = c.advance (m + n) := by
  simp [advance, Nat.add_assoc, List.drop_drop]

namespace Decoder

variable {α β : Type}

/-- The decoder goes through `n` bytes, whatever they are, and all it can miss is bytes. -/
structure Takes (n : Nat) (d : Decoder α) : Prop where
  found : ∀ c : Cursor, n ≤ c.remaining → ∃ a, d c = .ok a (c.advance n)
  short : ∀ c : Cursor, c.remaining < n → ∃ fault c', d c = .error fault c' ∧ fault.IsTruncated

namespace Takes

theorem pure (a : α) : Takes 0 (Pure.pure a : Decoder α) where
  found _ _ := ⟨a, rfl⟩
  short _ h := absurd h (Nat.not_lt_zero _)

theorem bind {m n : Nat} {d : Decoder α} {k : α → Decoder β} (hd : Takes m d)
    (hk : ∀ a, Takes n (k a)) : Takes (m + n) (d >>= k) where
  found c h := by
    obtain ⟨a, ha⟩ := hd.found c (by omega)
    obtain ⟨b, hb⟩ := (hk a).found (c.advance m) (by rw [c.remaining_advance]; omega)
    exact ⟨b, by rw [bind_of_ok ha, hb, c.advance_advance]⟩
  short c h := by
    by_cases hm : c.remaining < m
    · obtain ⟨fault, c', herror, htruncated⟩ := hd.short c hm
      exact ⟨fault, c', bind_of_error herror, htruncated⟩
    · obtain ⟨a, ha⟩ := hd.found c (Nat.not_lt.mp hm)
      rw [bind_of_ok ha]
      exact (hk a).short (c.advance m) (by rw [c.remaining_advance]; omega)

theorem byte : Takes 1 byte where
  found := by
    rintro ⟨position, _ | ⟨b, rest⟩⟩ h
    · cases h
    · exact ⟨b, rfl⟩
  short := by
    rintro ⟨position, _ | ⟨b, rest⟩⟩ h
    · exact ⟨_, _, rfl, trivial⟩
    · exact absurd h (Nat.not_lt.mpr (Nat.le_add_left _ _))

theorem slice (n : Nat) : Takes n (slice n) where
  found _ h := ⟨_, if_pos h⟩
  short _ h := ⟨_, _, if_neg (Nat.not_le.mpr h), trivial⟩

theorem fixed [FixedWidth α] : Takes (FixedWidth.width α) (fixed α) :=
  (slice _).bind fun _ => pure _

end Takes

end Decoder

open Decoder in
theorem Header.takes_decode : Takes 31 decode := by
  have hparts : Takes (4 + (8 + (1 + (1 + (1 + (8 + (8 + 0))))))) decode :=
    .bind (.fixed (α := UInt32)) fun _ => .bind (.fixed (α := UInt64)) fun _ => .bind .byte fun _ =>
      .bind .byte fun _ => .bind .byte fun _ => .bind (.fixed (α := Int64)) fun _ =>
      .bind (.fixed (α := Binary64)) fun _ => .pure _
  exact hparts

/-- What is read from a header is written as the bytes it was read from. -/
theorem Header.encode_of_decode {h : Header} {c : Cursor}
    (hok : decode c = .ok h (c.advance 31)) : h.encode = c.rest.take 31 := by
  obtain ⟨_, rfl, hpast⟩ := reads_decode.sound hok
  have hrest : c.rest = h.encode ++ c.rest.drop 31 := hpast.rest
  refine List.append_cancel_right (hrest.symm.trans ?_)
  exact (List.take_append_drop 31 c.rest).symm

/-! ## The place of a field -/

namespace HeaderField

/-- The first byte of a field. -/
def start : HeaderField → Nat
  | .magic => 0
  | .version => 4
  | .format => 5
  | .dataCheck => 6
  | .instructionSize => 12
  | .integerSize => 13
  | .floatSize => 14
  | .sanityInteger => 15
  | .sanityFloat => 23

/-- How many bytes a field takes up. -/
def width : HeaderField → Nat
  | .magic => 4
  | .dataCheck => 6
  | .sanityInteger | .sanityFloat => 8
  | .version | .format | .instructionSize | .integerSize | .floatSize => 1

/-- The byte at the offset is one of the field's. -/
def Covers (field : HeaderField) (offset : Nat) : Prop :=
  field.start ≤ offset ∧ offset < field.start + field.width

instance (field : HeaderField) (offset : Nat) : Decidable (field.Covers offset) :=
  inferInstanceAs (Decidable (_ ∧ _))

/-- Of two fields one lies behind the other. -/
theorem apart {field field' : HeaderField} (h : field ≠ field') :
    field.start + field.width ≤ field'.start ∨ field'.start + field'.width ≤ field.start := by
  cases field <;> cases field' <;> first | exact absurd rfl h | decide

theorem Covers.unique {field field' : HeaderField} {offset : Nat} (h : field.Covers offset)
    (h' : field'.Covers offset) : field = field' := by
  obtain ⟨hlow, hhigh⟩ := h
  obtain ⟨hlow', hhigh'⟩ := h'
  by_contra hne
  rcases apart hne with hbehind | hbehind
  · omega
  · omega

/-- The fields follow each other, the first of them at the offset. -/
def Adjacent : (offset : Nat) → List HeaderField → Prop
  | _, [] => True
  | offset, field :: rest => field.start = offset ∧ Adjacent (offset + field.width) rest

theorem adjacent_fields : Adjacent 0 Header.fields := by
  simp [Adjacent, Header.fields, start, width]

end HeaderField

/-! ## The bytes of a field -/

theorem Bytes.ofNat_add (m n v : Nat) :
    ofNat (m + n) v = ofNat m v ++ ofNat n (v / 256 ^ m) := by
  induction m generalizing v with
  | zero => simp [ofNat]
  | succ m ih =>
      rw [Nat.succ_add, ofNat_succ, ofNat_succ, ih, Nat.div_div_eq_div_mul, ← Nat.pow_succ']
      rfl

theorem Bytes.ofNat_mod (width v : Nat) : ofNat width (v % 256 ^ width) = ofNat width v := by
  induction width generalizing v with
  | zero => rfl
  | succ width ih =>
      rw [ofNat_succ, ofNat_succ, Nat.mod_mod_of_dvd _ (Dvd.intro_left _ (Nat.pow_succ ..).symm),
        Nat.pow_succ', Nat.mod_mul_right_div_self, ih]

/-- What is stored in a field, as a number. -/
def FieldValue.bits : FieldValue → Nat
  | .word n => n
  | .number f => f.bits.toNat

namespace Header

/-- The bytes of a field. -/
def stored (h : Header) (field : HeaderField) : Bytes :=
  Bytes.ofNat field.width (h.get field).bits

theorem length_stored (h : Header) (field : HeaderField) : (h.stored field).length = field.width :=
  Bytes.length_ofNat _ _

/-- A header is its fields one after the other. -/
theorem encode_eq_flatMap (h : Header) : h.encode = fields.flatMap h.stored := by
  have hversion : FixedWidth.encode h.version
      = h.stored .version ++ h.stored .format ++ h.stored .dataCheck := by
    have hword : FixedWidth.encode h.version = Bytes.ofNat (1 + 1 + 6) h.version.toNat := rfl
    have hnumber : h.stored .version = Bytes.ofNat 1 h.version.toNat := Bytes.ofNat_mod 1 _
    have hformat : h.stored .format = Bytes.ofNat 1 (h.version.toNat / 256) := Bytes.ofNat_mod 1 _
    have hcheck : h.stored .dataCheck = Bytes.ofNat 6 (h.version.toNat / 256 ^ (1 + 1)) :=
      congrArg (Bytes.ofNat 6) (Nat.shiftRight_eq_div_pow _ 16)
    rw [hword, hnumber, hformat, hcheck, Bytes.ofNat_add, Bytes.ofNat_add]
    rfl
  have hbyte (b : UInt8) : Bytes.ofNat 1 b.toNat = [b] := by simp [Bytes.ofNat]
  have hinstruction : h.stored .instructionSize = [h.instructionSize] := hbyte _
  have hinteger : h.stored .integerSize = [h.integerSize] := hbyte _
  have hfloat : h.stored .floatSize = [h.floatSize] := hbyte _
  simp only [encode, hversion, fields, List.flatMap_cons, List.flatMap_nil, List.append_nil,
    List.append_assoc, hinstruction, hinteger, hfloat]
  rfl

theorem bits_get_lt (h : Header) (field : HeaderField) :
    (h.get field).bits < 256 ^ field.width := by
  have hversion : h.version.toNat < 2 ^ 64 := h.version.toNat_lt
  cases field with
  | magic => exact h.magic.toNat_lt
  | version => exact Nat.mod_lt _ (by decide)
  | format => exact Nat.mod_lt _ (by decide)
  | dataCheck =>
      show h.version.toNat >>> 16 < 256 ^ 6
      rw [Nat.shiftRight_eq_div_pow]
      omega
  | instructionSize => exact h.instructionSize.toNat_lt
  | integerSize => exact h.integerSize.toNat_lt
  | floatSize => exact h.floatSize.toNat_lt
  | sanityInteger => exact h.sanityInteger.toUInt64.toNat_lt
  | sanityFloat => exact h.sanityFloat.bits.toNat_lt

theorem get_eq_iff_bits {h k : Header} {field : HeaderField} :
    h.get field = k.get field ↔ (h.get field).bits = (k.get field).bits := by
  refine ⟨congrArg _, fun hbits => ?_⟩
  cases field with
  | sanityFloat =>
      have hsame : h.sanityFloat = k.sanityFloat :=
        congrArg Binary64.mk (UInt64.toNat_inj.mp hbits)
      exact congrArg FieldValue.number hsame
  | _ => exact congrArg FieldValue.word hbits

/-- A field is as in another header just when its bytes are. -/
theorem stored_eq_iff {h k : Header} {field : HeaderField} :
    h.stored field = k.stored field ↔ h.get field = k.get field := by
  rw [get_eq_iff_bits]
  constructor
  · intro hstored
    have hnumber := congrArg Bytes.toNat hstored
    rwa [stored, stored, Bytes.toNat_ofNat, Bytes.toNat_ofNat,
      Nat.mod_eq_of_lt (h.bits_get_lt field), Nat.mod_eq_of_lt (k.bits_get_lt field)] at hnumber
  · intro hbits
    rw [stored, stored, hbits]

end Header

/-! ## The first byte that differs -/

namespace Bytes

/-- The sequences differ at the offset, and not before. -/
structure DifferFirstAt (x y : Bytes) (offset : Nat) : Prop where
  before : x.take offset = y.take offset
  here : x[offset]? ≠ y[offset]?

namespace DifferFirstAt

variable {x y z : Bytes} {i j : Nat}

theorem le_of_take (h : DifferFirstAt x y i) (hj : x.take j = y.take j) : j ≤ i := by
  by_contra hlt
  rw [Nat.not_le] at hlt
  have hsame : (x.take j)[i]? = (y.take j)[i]? := by rw [hj]
  rw [List.getElem?_take_of_lt hlt, List.getElem?_take_of_lt hlt] at hsame
  exact h.here hsame

theorem unique (h : DifferFirstAt x y i) (h' : DifferFirstAt x y j) : i = j :=
  Nat.le_antisymm (h'.le_of_take h.before) (h.le_of_take h'.before)

theorem append_left (h : DifferFirstAt x y i) (z : Bytes) :
    DifferFirstAt (z ++ x) (z ++ y) (z.length + i) where
  before := by rw [List.take_length_add_append, List.take_length_add_append, h.before]
  here := by
    rw [List.getElem?_append_right (Nat.le_add_right _ _),
      List.getElem?_append_right (Nat.le_add_right _ _), Nat.add_sub_cancel_left]
    exact h.here

theorem append (h : DifferFirstAt x y i) (hx : i < x.length) (hy : i < y.length) (x' y' : Bytes) :
    DifferFirstAt (x ++ x') (y ++ y') i where
  before := by
    rw [List.take_append_of_le_length hx.le, List.take_append_of_le_length hy.le, h.before]
  here := by
    rw [List.getElem?_append_left hx, List.getElem?_append_left hy]
    exact h.here

end DifferFirstAt

theorem exists_differFirstAt {x y : Bytes} (hlength : x.length = y.length) (hne : x ≠ y) :
    ∃ i < x.length, DifferFirstAt x y i := by
  induction x generalizing y with
  | nil => exact absurd (List.length_eq_zero_iff.mp hlength.symm).symm hne
  | cons b x ih =>
      cases y with
      | nil => cases hlength
      | cons b' y =>
          by_cases hb : b = b'
          · subst hb
            have hrest : x ≠ y := fun h => hne (congrArg (b :: ·) h)
            obtain ⟨i, hi, hdiffer⟩ := ih (Nat.succ.inj hlength) hrest
            refine ⟨i + 1, Nat.succ_lt_succ hi, ?_⟩
            rw [Nat.add_comm]
            exact hdiffer.append_left [b]
          · exact ⟨0, Nat.succ_pos _, ⟨rfl, by simpa using hb⟩⟩

end Bytes

namespace Header

/-- The first field that is not as it should be holds the first byte that is not. -/
theorem differFirstAt_of_find? {h k : Header} {field : HeaderField} {fs : List HeaderField}
    {offset : Nat} (hadjacent : HeaderField.Adjacent offset fs)
    (hfind : fs.find? (fun field => h.get field ≠ k.get field) = some field) :
    ∃ i, Bytes.DifferFirstAt (fs.flatMap h.stored) (fs.flatMap k.stored) i ∧
      field.Covers (offset + i) := by
  induction fs generalizing offset with
  | nil => cases hfind
  | cons first rest ih =>
      obtain ⟨hstart, hrest⟩ := hadjacent
      have hlength := h.length_stored first
      have hlength' := k.length_stored first
      rw [List.flatMap_cons, List.flatMap_cons]
      by_cases hsame : h.get first = k.get first
      · rw [List.find?_cons_of_neg (by simpa using hsame)] at hfind
        obtain ⟨i, hdiffer, hcovers⟩ := ih hrest hfind
        refine ⟨first.width + i, ?_, ?_⟩
        · rw [stored_eq_iff.mpr hsame, ← hlength']
          exact hdiffer.append_left _
        · rwa [← Nat.add_assoc]
      · rw [List.find?_cons_of_pos (by simpa using hsame)] at hfind
        cases hfind
        obtain ⟨i, hi, hdiffer⟩ :=
          Bytes.exists_differFirstAt (hlength.trans hlength'.symm) (mt stored_eq_iff.mp hsame)
        rw [hlength] at hi
        refine ⟨i, hdiffer.append (by omega) (by omega) _ _, ?_, ?_⟩
        · omega
        · omega

theorem mismatch?_eq_some_iff {h : Header} {field : HeaderField} :
    h.mismatch? = some field ↔
      ∃ i, Bytes.DifferFirstAt h.encode canonical.encode i ∧ field.Covers i := by
  have hfound {field' : HeaderField} (hsome : h.mismatch? = some field') :
      ∃ i, Bytes.DifferFirstAt h.encode canonical.encode i ∧ field'.Covers i := by
    rw [encode_eq_flatMap, encode_eq_flatMap]
    simpa using differFirstAt_of_find? HeaderField.adjacent_fields hsome
  refine ⟨hfound, ?_⟩
  rintro ⟨i, hdiffer, hcovers⟩
  cases hmismatch : h.mismatch? with
  | none =>
      rw [mismatch?_eq_none_iff] at hmismatch
      rw [hmismatch] at hdiffer
      exact absurd rfl hdiffer.here
  | some field' =>
      obtain ⟨i', hdiffer', hcovers'⟩ := hfound hmismatch
      cases hdiffer.unique hdiffer'
      rw [hcovers'.unique hcovers]

theorem validate_eq_error_iff {h : Header} {fault : DecodeFault} :
    h.validate = .error fault ↔
      ∃ field, h.mismatch? = some field ∧
        fault = .badHeader field (canonical.get field) (h.get field) := by
  unfold validate
  cases h.mismatch? <;> simp [eq_comm]

theorem eq_canonical_iff_encode {h : Header} :
    h = canonical ↔ h.encode = canonical.encode := by
  refine ⟨congrArg encode, fun hencode => ?_⟩
  rw [← mismatch?_eq_none_iff, Option.eq_none_iff_forall_ne_some]
  intro field hmismatch
  obtain ⟨i, hdiffer, -⟩ := mismatch?_eq_some_iff.mp hmismatch
  rw [hencode] at hdiffer
  exact hdiffer.here rfl

/-- **Headers are checked byte for byte.** Where fewer than 31 bytes are left there is no header,
and bytes are missing. Otherwise the next 31 bytes are read as a header that is written as just
these bytes. It passes if and only if they are those of the canonical header. If not, the fault
tells the field with the first byte that differs, what it should hold and what it holds. -/
theorem checked_byte_for_byte (c : Cursor) :
    (c.remaining < 31 → ∃ offset wanted available c',
      decode c = .error (.truncated offset wanted available) c') ∧
    (31 ≤ c.remaining → ∃ h, decode c = .ok h ⟨c.position + 31, c.rest.drop 31⟩ ∧
      h.encode = c.rest.take 31 ∧
      (h.validate = .ok () ↔ c.rest.take 31 = canonical.encode) ∧
      ∀ fault, h.validate = .error fault ↔
        ∃ field i, Bytes.DifferFirstAt (c.rest.take 31) canonical.encode i ∧ field.Covers i ∧
          fault = .badHeader field (canonical.get field) (h.get field)) := by
  constructor
  · intro hshort
    obtain ⟨fault, c', herror, htruncated⟩ := takes_decode.short c hshort
    obtain ⟨offset, wanted, available, rfl⟩ := DecodeFault.isTruncated_iff.mp htruncated
    exact ⟨offset, wanted, available, c', herror⟩
  · intro henough
    obtain ⟨h, hok⟩ := takes_decode.found c henough
    have hencode := encode_of_decode hok
    refine ⟨h, hok, hencode, ?_, ?_⟩
    · rw [validate_eq_ok_iff, ← hencode]
      exact eq_canonical_iff_encode
    · intro fault
      rw [validate_eq_error_iff, ← hencode]
      constructor
      · rintro ⟨field, hmismatch, rfl⟩
        obtain ⟨i, hdiffer, hcovers⟩ := mismatch?_eq_some_iff.mp hmismatch
        exact ⟨field, i, hdiffer, hcovers, rfl⟩
      · rintro ⟨field, i, hdiffer, hcovers, rfl⟩
        exact ⟨field, mismatch?_eq_some_iff.mpr ⟨i, hdiffer, hcovers⟩, rfl⟩

/-- A header with a wrong check byte and a test number that is not a number, and one more byte. -/
def flawed : Bytes := (Format.header.set 8 0x0a).set 30 0x7f ++ [0xff]

theorem checked_byte_for_byte_flawed :
    (31 ≤ (Cursor.start flawed).remaining ∧
      ∃ h expected found, decode (.start flawed) = .ok h ⟨31, [0xff]⟩ ∧
        h.encode = flawed.take 31 ∧
        h.validate = .error (.badHeader .dataCheck expected found)) ∧
    ((Cursor.start (Format.header.take 30)).remaining < 31 ∧
      ∃ offset wanted available c', decode (.start (Format.header.take 30))
        = .error (.truncated offset wanted available) c') := by
  have henough : 31 ≤ (Cursor.start flawed).remaining := by decide
  have hshort : (Cursor.start (Format.header.take 30)).remaining < 31 := by decide
  obtain ⟨h, hok, hencode, -, hfault⟩ := (checked_byte_for_byte (.start flawed)).2 henough
  have hdiffer : Bytes.DifferFirstAt (flawed.take 31) canonical.encode 8 :=
    ⟨by decide, by decide⟩
  have hvalidate := (hfault _).mpr ⟨.dataCheck, 8, hdiffer, by decide, rfl⟩
  exact ⟨⟨henough, h, _, _, hok, hencode, hvalidate⟩, hshort, (checked_byte_for_byte _).1 hshort⟩

end Header

end LuaBytecode
