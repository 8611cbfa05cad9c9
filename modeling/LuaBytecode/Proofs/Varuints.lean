import Mathlib
import LuaBytecode.Proofs.HeaderFields
import LuaBytecode.Proofs.Reencoding

/-! # Numbers in groups of seven bits

A number is written from its last group to its first and read the other way round, and the high
bit marks the byte where it ends. Reading takes what it is given: idle groups in front count for
nothing, and groups beyond 64 bits push the first ones out.

So a number has many forms, and the one that is written is the shortest. With `k` groups only the
numbers below `128 ^ k` can be spelt, and writing takes `k` groups for all of these. A form that
spills over 64 bits spells a number that is larger than the one that is read, so it is no way
around.
-/

namespace LuaBytecode

/-! ## What groups spell -/

namespace Format

/-- The groups are digits to base 128, the last of them being the lowest. -/
theorem groups_eq_ofDigits (bytes : Bytes) :
    groups bytes = Nat.ofDigits 128 (bytes.reverse.map fun b => b.toNat % 128) := by
  induction bytes using List.reverseRecOn with
  | nil => rfl
  | append_singleton bytes b ih =>
      rw [Encoder.groups_concat, ih, List.reverse_append, List.reverse_singleton,
        List.singleton_append, List.map_cons, Nat.ofDigits_cons]
      omega

theorem groups_lt (bytes : Bytes) : groups bytes < 128 ^ bytes.length := by
  have hdigits : ∀ d ∈ bytes.reverse.map (fun b => b.toNat % 128), d < 128 := by
    intro d hd
    obtain ⟨b, -, rfl⟩ := List.mem_map.mp hd
    exact Nat.mod_lt _ (by decide)
  have hlt := Nat.ofDigits_lt_base_pow_length (by decide : 1 < 128) hdigits
  rwa [List.length_map, List.length_reverse, ← groups_eq_ofDigits] at hlt

/-- However a number is spelt, its groups are as many as its size calls for. -/
theorem Varuint.toNat_lt {v : UInt64} {bytes : Bytes} (h : Varuint v bytes) :
    v.toNat < 128 ^ bytes.length := by
  obtain ⟨-, -, -, -, -, rfl⟩ := h
  calc (UInt64.ofNat (groups bytes)).toNat
      = groups bytes % 2 ^ 64 := UInt64.toNat_ofNat'
    _ ≤ groups bytes := Nat.mod_le _ _
    _ < 128 ^ bytes.length := groups_lt bytes

end Format

/-! ## How long a written number is -/

namespace Encoder

theorem length_varuintHigh_le_iff {n k : Nat} : (varuintHigh n).length ≤ k ↔ n < 128 ^ k := by
  induction n using varuintHigh.induct generalizing k with
  | case1 =>
      rw [varuintHigh, if_pos rfl]
      exact iff_of_true (Nat.zero_le k) (Nat.pow_pos (by decide))
  | case2 n hn ih =>
      rw [varuintHigh, if_neg hn, List.length_append, List.length_singleton]
      cases k with
      | zero =>
          rw [Nat.pow_zero]
          omega
      | succ k =>
          rw [Nat.add_le_add_iff_right, ih, Nat.div_lt_iff_lt_mul (by decide), Nat.pow_succ]

/-- The last group is written even if the number is 0, so there is one byte at least. -/
theorem length_varuint_le_iff {v : UInt64} {k : Nat} (hk : 0 < k) :
    (varuint v).length ≤ k ↔ v.toNat < 128 ^ k := by
  obtain ⟨k, rfl⟩ := Nat.exists_eq_succ_of_ne_zero hk.ne'
  rw [varuint, List.length_append, List.length_singleton, Nat.add_le_add_iff_right,
    length_varuintHigh_le_iff, Nat.div_lt_iff_lt_mul (by decide), Nat.pow_succ]

theorem length_varuint_le_ten (v : UInt64) : (varuint v).length ≤ 10 := by
  rw [length_varuint_le_iff (by decide)]
  exact v.toNat_lt.trans (by decide)

/-- No form of a number is shorter than the one that is written. -/
theorem length_varuint_le {v : UInt64} {bytes : Bytes} (h : Format.Varuint v bytes) :
    (varuint v).length ≤ bytes.length :=
  (length_varuint_le_iff (List.length_pos_of_ne_nil h.ne_nil)).mpr h.toNat_lt

end Encoder

/-! ## What is read -/

theorem Cursor.past_advance {c : Cursor} {n : Nat} (h : n ≤ c.remaining) :
    c.Past (c.rest.take n) (c.advance n) where
  rest := (List.take_append_drop n c.rest).symm
  position := by
    rw [List.length_take_of_le h]
    rfl

namespace Decoder

open Format (groups)

/-- The number ends with the first byte that has its high bit set. -/
theorem varuint_of_findIdx?_eq_some {c : Cursor} {n : Nat}
    (h : c.rest.findIdx? (128 ≤ ·) = some n) :
    varuint c = .ok (UInt64.ofNat (groups (c.rest.take (n + 1)))) (c.advance (n + 1)) := by
  obtain ⟨hn, hlast, hbefore⟩ := List.findIdx?_eq_some_iff_getElem.mp h
  have hhigh : ∀ b ∈ c.rest.take n, b < 128 := by
    intro b hb
    obtain ⟨m, hm, rfl⟩ := List.mem_take_iff_getElem.mp hb
    have hnot := hbefore m (by omega)
    simpa using hnot
  have hfinds := Decided.finds_varuint hhigh (of_decide_eq_true hlast) c.position
  rw [List.take_append_getElem hn] at hfinds
  exact hfinds.of_past (Cursor.past_advance hn)

/-- Without such a byte it goes on up to the end. -/
theorem varuint_of_findIdx?_eq_none {c : Cursor} (h : c.rest.findIdx? (128 ≤ ·) = none) :
    varuint c
      = .error (.truncated (c.position + c.remaining) 1 0) (c.advance c.remaining) := by
  cases hread : varuint c with
  | ok v c' =>
      -- a number that is found ends with a byte that is not there
      obtain ⟨_, ⟨high, last, rfl, -, hlast, -⟩, hpast⟩ := Reads.varuint.sound hread
      have hmem : last ∈ c.rest := by
        rw [hpast.rest]
        simp
      have hnot := List.findIdx?_eq_none_iff.mp h last hmem
      exact absurd hlast (of_decide_eq_false hnot)
  | error fault c' =>
      obtain ⟨rfl, rfl⟩ := Decided.varuintFrom_error hread
      rw [Cursor.advance, Cursor.remaining, List.drop_length]

/-- **Numbers are written in their shortest form and read in any.** What is written for a number is
read as that number wherever it stands. It takes up ten bytes at most, of which only the last has
its high bit set, and no bytes that are read as the number are fewer. Whatever bytes are there,
reading goes through the first one with its high bit set and gives the digits to base 128 up to it
modulo `2 ^ 64`. If there is none, a byte is missed at the end. -/
theorem varuint_codec (v : UInt64) (c : Cursor) :
    (∀ position, Finds varuint position v (Encoder.varuint v)) ∧
    (Encoder.varuint v).length ≤ 10 ∧
    (∃ high last, Encoder.varuint v = high ++ [last] ∧ (∀ b ∈ high, b < 128) ∧ 128 ≤ last) ∧
    (∀ c', varuint c = .ok v c' → c'.rest = [] → (Encoder.varuint v).length ≤ c.rest.length) ∧
    (∀ n, c.rest.findIdx? (128 ≤ ·) = some n →
      varuint c = .ok
        (UInt64.ofNat
          (Nat.ofDigits 128 ((c.rest.take (n + 1)).reverse.map fun b => b.toNat % 128)))
        (c.advance (n + 1))) ∧
    (c.rest.findIdx? (128 ≤ ·) = none →
      varuint c
        = .error (.truncated (c.position + c.remaining) 1 0) (c.advance c.remaining)) := by
  obtain ⟨high, last, hbytes, hhigh, hlast, -⟩ := Encoder.varuint_form v
  refine ⟨finds_encode_varuint v, Encoder.length_varuint_le_ten v,
    ⟨high, last, hbytes, hhigh, hlast⟩, ?_, ?_, varuint_of_findIdx?_eq_none⟩
  · intro c' hread hrest
    obtain ⟨bytes, hform, hpast⟩ := Reads.varuint.sound hread
    rw [hpast.rest, hrest, List.append_nil]
    exact Encoder.length_varuint_le hform
  · intro n hn
    rw [← Format.groups_eq_ofDigits]
    exact varuint_of_findIdx?_eq_some hn

/-- Ten groups that spell `2 ^ 64` are read as 0, which one byte stands for. -/
theorem varuint_codec_spilling :
    varuint ⟨5, [2, 0, 0, 0, 0, 0, 0, 0, 0, 0x80, 7]⟩ = .ok 0 ⟨15, [7]⟩ ∧
    varuint ⟨5, [2, 0, 0, 0, 0, 0, 0, 0, 0, 0x80]⟩ = .ok 0 ⟨15, []⟩ ∧
    (Encoder.varuint 0).length ≤ 10 ∧
    varuint ⟨5, [1, 2]⟩ = .error (.truncated 7 1 0) ⟨7, []⟩ := by
  have hread : varuint ⟨5, [2, 0, 0, 0, 0, 0, 0, 0, 0, 0x80]⟩ = .ok 0 ⟨15, []⟩ := by
    obtain ⟨-, -, -, -, hgroups, -⟩ :=
      varuint_codec 0 ⟨5, [2, 0, 0, 0, 0, 0, 0, 0, 0, 0x80]⟩
    exact hgroups 9 (by decide)
  refine ⟨?_, hread, ?_, ?_⟩
  · obtain ⟨-, -, -, -, hgroups, -⟩ :=
      varuint_codec 0 ⟨5, [2, 0, 0, 0, 0, 0, 0, 0, 0, 0x80, 7]⟩
    exact hgroups 9 (by decide)
  · obtain ⟨-, -, -, hshortest, -⟩ := varuint_codec 0 ⟨5, [2, 0, 0, 0, 0, 0, 0, 0, 0, 0x80]⟩
    exact hshortest _ hread rfl
  · obtain ⟨-, -, -, -, -, hopen⟩ := varuint_codec 0 ⟨5, [1, 2]⟩
    exact hopen (by decide)

end Decoder

end LuaBytecode
