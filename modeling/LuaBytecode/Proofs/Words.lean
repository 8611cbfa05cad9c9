import Mathlib
import LuaBytecode.Binary.Bytes

/-! # Words, texts and their bytes

The bytes of a fixed-width word and of a text determine it, and every sequence
of bytes of the right length, or in valid UTF-8, comes from one.
-/

namespace LuaBytecode

namespace Bytes

/-! ## Numbers -/

theorem ofNat_succ (width n : Nat) :
    ofNat (width + 1) n = UInt8.ofNat (n % 256) :: ofNat width (n / 256) := rfl

theorem toNat_cons (b : UInt8) (rest : Bytes) : toNat (b :: rest) = b.toNat + 256 * toNat rest := rfl

@[simp] theorem length_ofNat (width n : Nat) : (ofNat width n).length = width := by
  induction width generalizing n with
  | zero => rfl
  | succ width ih => rw [ofNat_succ, List.length_cons, ih]

theorem toNat_ofNat (width n : Nat) : toNat (ofNat width n) = n % 256 ^ width := by
  induction width generalizing n with
  | zero => exact (Nat.mod_one n).symm
  | succ width ih =>
      have hdigit : (UInt8.ofNat (n % 256)).toNat = n % 256 := by simp
      rw [ofNat_succ, toNat_cons, ih, hdigit, Nat.pow_succ', Nat.mod_mul]

theorem toNat_lt (bytes : Bytes) : toNat bytes < 256 ^ bytes.length := by
  induction bytes with
  | nil => exact Nat.one_pos
  | cons b rest ih =>
      have hb : b.toNat < 256 := b.toNat_lt
      rw [toNat_cons, List.length_cons, Nat.pow_succ]
      omega

theorem ofNat_toNat (bytes : Bytes) : ofNat bytes.length (toNat bytes) = bytes := by
  induction bytes with
  | nil => rfl
  | cons b rest ih =>
      have hb : b.toNat < 256 := b.toNat_lt
      have hlow : (b.toNat + 256 * toNat rest) % 256 = b.toNat := by omega
      have hhigh : (b.toNat + 256 * toNat rest) / 256 = toNat rest := by omega
      rw [toNat_cons, List.length_cons, ofNat_succ, hlow, hhigh, ih]
      simp

/-! ## Texts -/

@[simp] theorem length_ofText (s : String) : (ofText s).length = s.utf8ByteSize := rfl

theorem toText?_eq_some_iff {bytes : Bytes} {s : String} :
    toText? bytes = some s ↔ bytes = ofText s := by
  unfold toText? String.fromUTF8? ofText
  constructor
  · intro h
    split at h
    · rw [← Option.some.inj h]
      rfl
    · cases h
  · rintro rfl
    exact dif_pos s.isValidUTF8

end Bytes

namespace FixedWidth

variable {α : Type} [FixedWidth α]

/-! ## One word -/

theorem bound_eq (α : Type) [FixedWidth α] : 1 <<< (8 * width α) = 256 ^ width α := by
  rw [Nat.one_shiftLeft, Nat.pow_mul]

@[simp] theorem length_encode (a : α) : (encode a).length = width α :=
  Bytes.length_ofNat _ _

theorem decode_encode (a : α) : decode α (encode a) = a := by
  have hlt : toNat a < 256 ^ width α := bound_eq α ▸ toNat_lt a
  rw [decode, encode, Bytes.toNat_ofNat, Nat.mod_eq_of_lt hlt]
  exact ofNat_toNat a

theorem encode_decode {bytes : Bytes} (h : bytes.length = width α) :
    encode (decode α bytes) = bytes := by
  have hlt : bytes.toNat < 1 <<< (8 * width α) := by
    rw [bound_eq, ← h]
    exact Bytes.toNat_lt bytes
  rw [encode, decode, toNat_ofNat _ hlt, ← h]
  exact Bytes.ofNat_toNat bytes

/-! ## Several words one after the other -/

theorem decodeList_succ (count : Nat) (bytes : Bytes) :
    decodeList α (count + 1) bytes
      = decode α (bytes.take (width α)) :: decodeList α count (bytes.drop (width α)) := rfl

theorem decodeList_flatMap_encode (xs : List α) :
    decodeList α xs.length (xs.flatMap encode) = xs := by
  induction xs with
  | nil => rfl
  | cons a rest ih =>
      have htake : (encode a ++ rest.flatMap encode).take (width α) = encode a :=
        List.take_left' (length_encode a)
      have hdrop : (encode a ++ rest.flatMap encode).drop (width α)
          = rest.flatMap encode := List.drop_left' (length_encode a)
      rw [List.flatMap_cons, List.length_cons, decodeList_succ, htake, hdrop, ih,
        decode_encode]

@[simp] theorem length_decodeList (count : Nat) (bytes : Bytes) :
    (decodeList α count bytes).length = count := by
  induction count generalizing bytes with
  | zero => rfl
  | succ count ih => rw [decodeList_succ, List.length_cons, ih]

theorem flatMap_encode_decodeList {count : Nat} {bytes : Bytes}
    (h : bytes.length = count * width α) :
    (decodeList α count bytes).flatMap encode = bytes := by
  induction count generalizing bytes with
  | zero =>
      rw [Nat.zero_mul, List.length_eq_zero_iff] at h
      rw [h]
      rfl
  | succ count ih =>
      rw [Nat.succ_mul] at h
      have htake : (bytes.take (width α)).length = width α := by
        rw [List.length_take]
        omega
      have hdrop : (bytes.drop (width α)).length = count * width α := by
        rw [List.length_drop]
        omega
      rw [decodeList_succ, List.flatMap_cons, ih hdrop, encode_decode htake,
        List.take_append_drop]

theorem length_flatMap_encode (xs : List α) :
    (xs.flatMap encode).length = xs.length * width α := by
  induction xs with
  | nil => simp
  | cons a rest ih =>
      rw [List.flatMap_cons, List.length_append, ih, length_encode,
        List.length_cons, Nat.succ_mul, Nat.add_comm]

end FixedWidth

end LuaBytecode
