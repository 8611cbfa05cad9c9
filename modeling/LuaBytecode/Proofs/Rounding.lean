import Mathlib
import LuaBytecode.Binary64

/-! # Rounding integers to doubles

A positive integer becomes the double that has its 53 leading bits, rounded. What is said
of the rounding is that it adds at most half of the last place, which is the share
`1 / (2 * hiddenUnit)` of the number.
-/

namespace LuaBytecode.Binary64

/-- The bits of a positive number whose leading bit weighs `2 ^ top`, given with the leading bit in
place of the hidden unit. -/
def ofLeading (top m : Nat) : Binary64 := ofMagnitude false ((1022 + top) * hiddenUnit + m)

/-- The leading bit is where the hidden one belongs, and the number is not too large. -/
structure IsNormal (top m : Nat) : Prop where
  top_le : top ≤ 1023
  least : hiddenUnit ≤ m
  greatest : m < 2 * hiddenUnit

theorem hiddenUnit_eq : hiddenUnit = 2 ^ 52 := rfl

theorem hiddenUnit_pos : 0 < hiddenUnit := by decide

theorem IsNormal.pos {top m : Nat} (hm : IsNormal top m) : 0 < m :=
  hiddenUnit_pos.trans_le hm.least

section

variable {size top m : Nat}

theorem significand_bounds (hsize : size ≠ 0) (htop : size.log2 = top)
    (hm : m * 2 ^ top = size * hiddenUnit) : hiddenUnit ≤ m ∧ m < 2 * hiddenUnit := by
  have hlow : 2 ^ top ≤ size := htop ▸ Nat.log2_self_le hsize
  have hhigh : size < 2 * 2 ^ top := by
    rw [← pow_succ', ← htop]
    exact Nat.lt_log2_self
  have hpos : 0 < 2 ^ top := Nat.two_pow_pos top
  constructor
  · refine Nat.le_of_mul_le_mul_right ?_ hpos
    rw [hm, Nat.mul_comm]
    exact Nat.mul_le_mul_right _ hlow
  · refine Nat.lt_of_mul_lt_mul_right (a := 2 ^ top) ?_
    rw [hm, Nat.mul_right_comm]
    exact Nat.mul_lt_mul_of_pos_right hhigh (by decide)

theorem shifted_eq_significand (hm : m * 2 ^ top = size * hiddenUnit) :
    (if 0 ≤ (top : Int) - 52 then size >>> ((top : Int) - 52).toNat
      else size <<< (-((top : Int) - 52)).toNat) = m := by
  split
  · have hsplit : 2 ^ top = 2 ^ ((top : Int) - 52).toNat * hiddenUnit := by
      rw [hiddenUnit_eq, ← pow_add]
      congr 1
      omega
    rw [hsplit, ← Nat.mul_assoc] at hm
    rw [Nat.shiftRight_eq_div_pow, ← Nat.eq_of_mul_eq_mul_right (by decide) hm,
      Nat.mul_div_cancel _ (Nat.two_pow_pos _)]
  · have hsplit : hiddenUnit = 2 ^ (-((top : Int) - 52)).toNat * 2 ^ top := by
      rw [hiddenUnit_eq, ← pow_add]
      congr 1
      omega
    rw [hsplit, ← Nat.mul_assoc] at hm
    rw [Nat.shiftLeft_eq, Nat.eq_of_mul_eq_mul_right (Nat.two_pow_pos top) hm]

/-- A number of at most 53 bits is shifted until its leading bit is the hidden one. -/
theorem ofScaled_eq_ofLeading (hsize : size ≠ 0) (htop : size.log2 = top) (e : Nat)
    (hm : m * 2 ^ top = size * hiddenUnit) : ofScaled false size e = ofLeading (top + e) m := by
  obtain ⟨hleast, hgreatest⟩ := significand_bounds hsize htop hm
  have hshift : max ((top : Int) - 52) (-1074 - (e : Int)) = top - 52 := by omega
  have hbiased : ((e : Int) + (top - 52) + 1075).toNat = 1022 + (top + e) + 1 := by omega
  have hfraction : m % hiddenUnit = m - hiddenUnit := by
    rw [Nat.mod_eq_sub_mod hleast, Nat.mod_eq_of_lt (by omega)]
  have hmagnitude : (1022 + (top + e) + 1) * hiddenUnit + (m - hiddenUnit)
      = (1022 + (top + e)) * hiddenUnit + m := by
    rw [Nat.add_mul _ 1]
    omega
  simp only [ofScaled, hsize, if_false, htop, hshift, shifted_eq_significand hm,
    Nat.not_lt.mpr hleast, hbiased, hfraction, hmagnitude, ofLeading]

end

/-- Rounding to a multiple of `unit` moves a number up by at most half of that. -/
theorem rounded_le {n unit rounded : Nat}
    (hrounded : rounded = if unit < 2 * (n % unit) ∨ unit = 2 * (n % unit) ∧ n / unit % 2 = 1
      then n / unit + 1 else n / unit) : 2 * (rounded * unit) ≤ 2 * n + unit := by
  have hsplit : n / unit * unit + n % unit = n := Nat.div_add_mod' n unit
  split_ifs at hrounded with hup
  · rw [hrounded, Nat.add_mul]
    omega
  · rw [hrounded]
    omega

/-- An integer is cut off after its 53 leading bits, up or down. -/
theorem ofNat_eq_ofScaled {n : Nat} (hn : n ≠ 0) (hsmall : n.log2 < 1023) :
    ∃ rounded : Nat, ofNat false n = ofScaled false rounded (n.log2 - 52 : Nat) ∧
      n / 2 ^ (n.log2 - 52) ≤ rounded ∧ rounded ≤ n / 2 ^ (n.log2 - 52) + 1 ∧
      2 * (rounded * 2 ^ (n.log2 - 52)) ≤ 2 * n + 2 ^ (n.log2 - 52) := by
  have hunit : 2 ^ (n.log2 - 52) ≤ n :=
    (Nat.pow_le_pow_right (by decide) (Nat.sub_le _ _)).trans (Nat.log2_self_le hn)
  generalize hrounded : (if 2 ^ (n.log2 - 52) < 2 * (n % 2 ^ (n.log2 - 52)) ∨
      2 ^ (n.log2 - 52) = 2 * (n % 2 ^ (n.log2 - 52)) ∧ n / 2 ^ (n.log2 - 52) % 2 = 1
    then n / 2 ^ (n.log2 - 52) + 1 else n / 2 ^ (n.log2 - 52)) = rounded
  have hle := rounded_le hrounded.symm
  have hfits : ¬ 1 <<< 1024 ≤ rounded * 2 ^ (n.log2 - 52) := by
    have hbelow {k : Nat} (hk : n.log2 + 2 ≤ k) : rounded * 2 ^ (n.log2 - 52) < 1 <<< k := by
      calc rounded * 2 ^ (n.log2 - 52) ≤ 2 * n := by omega
        _ < 2 * 2 ^ (n.log2 + 1) := Nat.mul_lt_mul_of_pos_left Nat.lt_log2_self (by decide)
        _ = 2 ^ (n.log2 + 2) := (pow_succ' 2 _).symm
        _ ≤ 2 ^ k := Nat.pow_le_pow_right (by decide) hk
        _ = 1 <<< k := (Nat.one_shiftLeft k).symm
    exact Nat.not_le.mpr (hbelow (by omega))
  refine ⟨rounded, ?_, ?_, ?_, hle⟩
  · unfold ofNat
    simp only [Nat.one_shiftLeft 1024, Nat.one_shiftLeft (n.log2 - 52)] at hfits ⊢
    rw [hrounded, if_neg hfits]
  · rw [← hrounded]
    split_ifs <;> omega
  · rw [← hrounded]
    split_ifs <;> omega

/-- Whatever has at most 53 bits, and the next power of two, has its leading bit moved to the
place of the hidden one. -/
theorem exists_significand {size : Nat} (hsize : size ≤ 2 * hiddenUnit) :
    ∃ m, m * 2 ^ size.log2 = size * hiddenUnit := by
  rcases hsize.lt_or_eq with hlt | rfl
  · by_cases hzero : size = 0
    · exact ⟨0, by simp [hzero]⟩
    · have hlog : size.log2 < 53 := (Nat.log2_lt hzero).mpr hlt
      refine ⟨size * 2 ^ (52 - size.log2), ?_⟩
      rw [Nat.mul_assoc, ← pow_add, Nat.sub_add_cancel (by omega)]
      rfl
  · exact ⟨hiddenUnit, by decide⟩

/-- An integer is rounded by at most half of its last place. -/
theorem ofNat_eq_ofLeading {n : Nat} (hn : n ≠ 0) (hsmall : n.log2 < 1023) :
    ∃ top m, ofNat false n = ofLeading top m ∧ IsNormal top m ∧
      2 * (m * 2 ^ top) ≤ (2 * hiddenUnit + 1) * n := by
  obtain ⟨rounded, hround, hleast, hgreatest, hle⟩ := ofNat_eq_ofScaled hn hsmall
  generalize hshift : n.log2 - 52 = shift at *
  have hunit : 0 < 2 ^ shift := Nat.two_pow_pos shift
  have hshort : n / 2 ^ shift < 2 * hiddenUnit := by
    refine Nat.div_lt_of_lt_mul (Nat.lt_log2_self.trans_le ?_)
    calc 2 ^ (n.log2 + 1) ≤ 2 ^ (shift + 53) := Nat.pow_le_pow_right (by decide) (by omega)
      _ = 2 ^ shift * (2 * hiddenUnit) := pow_add 2 shift 53
  have hpositive : rounded ≠ 0 := by
    have hbelow : 2 ^ shift ≤ n :=
      (Nat.pow_le_pow_right (by decide) (by omega)).trans (Nat.log2_self_le hn)
    have := Nat.div_pos hbelow hunit
    omega
  have hexact : shift = 0 → rounded = n := by
    rintro rfl
    rw [pow_zero, Nat.div_one] at hleast
    omega
  obtain ⟨m, hm⟩ := exists_significand (show rounded ≤ 2 * hiddenUnit by omega)
  obtain ⟨hmleast, hmgreatest⟩ := significand_bounds hpositive rfl hm
  have hvalue : 2 * (m * 2 ^ (rounded.log2 + shift)) = 2 * (rounded * 2 ^ shift) * hiddenUnit := by
    rw [pow_add, ← Nat.mul_assoc m, hm]
    ring
  have htop : rounded.log2 + shift ≤ 1023 := by
    rcases Nat.eq_zero_or_pos shift with rfl | hcut
    · rw [hexact rfl]
      exact hsmall.le
    · have hlog : rounded.log2 < 54 :=
        (Nat.log2_lt hpositive).mpr (lt_of_le_of_lt (b := 2 * hiddenUnit) (by omega) (by decide))
      omega
  refine ⟨rounded.log2 + shift, m, ?_, ⟨htop, hmleast, hmgreatest⟩, ?_⟩
  · rw [hround]
    exact ofScaled_eq_ofLeading hpositive rfl shift hm
  · rw [hvalue, Nat.add_mul, Nat.one_mul]
    rcases Nat.eq_zero_or_pos shift with rfl | hcut
    · rw [hexact rfl, pow_zero, Nat.mul_one, Nat.mul_right_comm]
      exact Nat.le_add_right _ _
    · have hlarge : 2 ^ shift * hiddenUnit ≤ n := by
        rw [hiddenUnit_eq, ← pow_add, show shift + 52 = n.log2 by omega]
        exact Nat.log2_self_le hn
      calc 2 * (rounded * 2 ^ shift) * hiddenUnit ≤ (2 * n + 2 ^ shift) * hiddenUnit :=
            Nat.mul_le_mul_right _ hle
        _ = 2 * hiddenUnit * n + 2 ^ shift * hiddenUnit := by rw [Nat.add_mul, Nat.mul_right_comm]
        _ ≤ 2 * hiddenUnit * n + n := Nat.add_le_add_left hlarge _

/-! ## Bits -/

section

variable {top m n : Nat} {f : Binary64}

theorem IsNormal.lt_infiniteMagnitude (hm : IsNormal top m) :
    (1022 + top) * hiddenUnit + m < infiniteMagnitude := by
  have hexponent : (1022 + top) * hiddenUnit ≤ 2045 * hiddenUnit :=
    Nat.mul_le_mul_right _ (Nat.add_le_add_left hm.top_le 1022)
  have hgreatest := hm.greatest
  rw [infiniteMagnitude]
  omega

theorem toNat_bits_ofLeading (hm : IsNormal top m) :
    (ofLeading top m).bits.toNat = (1022 + top) * hiddenUnit + m := by
  have hsize : (1022 + top) * hiddenUnit + m < UInt64.size :=
    hm.lt_infiniteMagnitude.trans (by decide)
  rw [ofLeading, ofMagnitude, if_neg (by decide), Nat.zero_add]
  exact UInt64.toNat_ofNat_of_lt hsize

theorem magnitude_ofLeading (hm : IsNormal top m) :
    (ofLeading top m).magnitude = (1022 + top) * hiddenUnit + m := by
  rw [magnitude, toNat_bits_ofLeading hm]
  exact Nat.mod_eq_of_lt (hm.lt_infiniteMagnitude.trans (by decide))

theorem isFinite_ofLeading (hm : IsNormal top m) : (ofLeading top m).isFinite = true := by
  rw [isFinite, decide_eq_true_iff, magnitude_ofLeading hm]
  exact hm.lt_infiniteMagnitude

theorem isFinite_ofNat (hsmall : n.log2 < 1023) : (ofNat false n).isFinite = true := by
  by_cases hn : n = 0
  · subst hn
    decide
  · obtain ⟨top, m, hof, hm, -⟩ := ofNat_eq_ofLeading hn hsmall
    rw [hof]
    exact isFinite_ofLeading hm

theorem isNaN_of_isFinite (hf : f.isFinite = true) : f.isNaN = false := by
  rw [isFinite, decide_eq_true_iff] at hf
  exact decide_eq_false (Nat.not_lt.mpr hf.le)

theorem isInfinite_of_isFinite (hf : f.isFinite = true) : f.isInfinite = false := by
  rw [isFinite, decide_eq_true_iff] at hf
  exact decide_eq_false hf.ne

end

end LuaBytecode.Binary64
