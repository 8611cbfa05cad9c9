import Mathlib
import LuaBytecode.Proofs.Rounding
import LuaBytecode.Json.Numeral

/-! # Products of doubles

The product of two doubles is their exact product with the bits after the 53rd rounded off.
So it is finite when the exact product is below the largest double. With that a decimal
numeral has a value as long as it stays a little below that bound: its digits, the power of
ten and their product are rounded, each by at most half of a last place.
-/

namespace LuaBytecode.Binary64

open Float.Model (Format UnpackedFloat)
open Float.Model.UnpackedFloat (ExtendedMantissa Sign)

/-! ## Dropping bits -/

theorem mantissa_shiftRight (m k : Nat) :
    (ExtendedMantissa.mk m false false >>> k).mantissa = m / 2 ^ k := by
  induction k with
  | zero => exact (Nat.div_one _).symm
  | succ k ih =>
      show (ExtendedMantissa.mk m false false >>> k).mantissa / 2 = _
      rw [ih, Nat.div_div_eq_div_mul, pow_succ]

theorem roundBit_shiftRight (m k : Nat) :
    (ExtendedMantissa.mk m false false >>> (k + 1)).roundBit = (m / 2 ^ k % 2 != 0) := by
  show ((ExtendedMantissa.mk m false false >>> k).mantissa % 2 != 0) = _
  rw [mantissa_shiftRight]

theorem roundedMantissa_bounds (em : ExtendedMantissa) :
    em.mantissa ≤ em.roundedMantissa ∧ em.roundedMantissa ≤ em.mantissa + 1 ∧
      (em.roundBit = false → em.roundedMantissa = em.mantissa) := by
  obtain ⟨m, round, sticky⟩ := em
  cases round <;> cases sticky <;>
    simp [ExtendedMantissa.roundedMantissa, ExtendedMantissa.accuracy,
      Float.Model.UnpackedFloat.Accuracy.roundToNearestEven]
  omega

/-- Dropping bits rounds a number up by at most half of the unit that is left. -/
theorem roundedMantissa_shiftRight_le (m k : Nat) :
    2 * ((ExtendedMantissa.mk m false false >>> k).roundedMantissa * 2 ^ k) ≤ 2 * m + 2 ^ k := by
  cases k with
  | zero =>
      have hexact := (roundedMantissa_bounds (ExtendedMantissa.mk m false false >>> 0)).2.2 rfl
      rw [hexact, mantissa_shiftRight]
      simp
  | succ k =>
      obtain ⟨-, hle, hexact⟩ :=
        roundedMantissa_bounds (ExtendedMantissa.mk m false false >>> (k + 1))
      rw [mantissa_shiftRight, pow_succ, ← Nat.div_div_eq_div_mul] at hle
      rw [mantissa_shiftRight, pow_succ, ← Nat.div_div_eq_div_mul, roundBit_shiftRight] at hexact
      generalize (ExtendedMantissa.mk m false false >>> (k + 1)).roundedMantissa = rounded at *
      have htwice : rounded * 2 ≤ m / 2 ^ k + 1 := by
        by_cases heven : m / 2 ^ k % 2 = 0
        · have := hexact (by simp [heven])
          omega
        · omega
      calc 2 * (rounded * 2 ^ (k + 1)) = 2 * (rounded * 2 * 2 ^ k) := by ring
        _ ≤ 2 * ((m / 2 ^ k + 1) * 2 ^ k) := by gcongr
        _ = 2 * (m / 2 ^ k * 2 ^ k) + 2 ^ (k + 1) := by ring
        _ ≤ 2 * m + 2 ^ (k + 1) := by gcongr; exact Nat.div_mul_le_self m _

/-! ## Rounding -/

theorem shiftToTargetExponent_eq {size : Nat} {e : Int} (hlong : 52 ≤ size.log2)
    (hnormal : -1022 ≤ e + size.log2) :
    UnpackedFloat.shiftToTargetExponent .binary64 size e .exact
      = (ExtendedMantissa.mk size false false >>> (size.log2 - 52), e + (size.log2 - 52 : Nat)) := by
  have hshift : (Format.binary64.targetExponent (Float.Model.totalExponent size e) - e).toNat
      = size.log2 - 52 := by
    simp only [Format.targetExponent, Float.Model.totalExponent, Format.mantissaBits,
      Format.minExponent]
    omega
  rw [UnpackedFloat.shiftToTargetExponent, UnpackedFloat.shiftToExponent, hshift]
  rfl

/-- A number with at least 53 bits, the leading of which weighs `2 ^ top`, is rounded to 53 bits. -/
theorem roundWithAccuracy_eq {size top : Nat} {e : Int} (hsize : size ≠ 0)
    (hlong : 52 ≤ size.log2) (htop : e + size.log2 = top) (s : Sign) :
    ∃ (rounded m : Nat) (hpos : 0 < m),
      UnpackedFloat.roundWithAccuracy .binary64 s size e .exact
        = .finite s m ((top : Int) + rounded.log2 - 104) hpos ∧
      m * 2 ^ rounded.log2 = rounded * hiddenUnit ∧ hiddenUnit ≤ rounded ∧
      rounded ≤ size / 2 ^ (size.log2 - 52) + 1 ∧
      2 * (rounded * 2 ^ (size.log2 - 52)) ≤ 2 * size + 2 ^ (size.log2 - 52) := by
  obtain ⟨hleast, hgreatest, -⟩ :=
    roundedMantissa_bounds (ExtendedMantissa.mk size false false >>> (size.log2 - 52))
  have hle := roundedMantissa_shiftRight_le size (size.log2 - 52)
  rw [mantissa_shiftRight] at hleast hgreatest
  have hfirst := shiftToTargetExponent_eq hlong (e := e) (by omega)
  generalize (ExtendedMantissa.mk size false false >>> (size.log2 - 52)) = em at *
  have hshort : size / 2 ^ (size.log2 - 52) < 2 * hiddenUnit := by
    refine Nat.div_lt_of_lt_mul (Nat.lt_log2_self.trans_le ?_)
    calc 2 ^ (size.log2 + 1) = 2 ^ ((size.log2 - 52) + 53) := by congr 1; omega
      _ ≤ 2 ^ (size.log2 - 52) * (2 * hiddenUnit) := (pow_add 2 _ 53).le
  have hnormal : hiddenUnit ≤ size / 2 ^ (size.log2 - 52) := by
    refine (Nat.le_div_iff_mul_le (Nat.two_pow_pos _)).mpr ?_
    rw [hiddenUnit_eq, ← pow_add, Nat.add_sub_cancel' hlong]
    exact Nat.log2_self_le hsize
  generalize hrounded : em.roundedMantissa = rounded at *
  have hpositive : rounded ≠ 0 := (hiddenUnit_pos.trans_le (hnormal.trans hleast)).ne'
  have hlog : 52 ≤ rounded.log2 := (Nat.le_log2 hpositive).mpr (hnormal.trans hleast)
  -- rounding up can carry into a 54th bit, which the second shift drops without a loss
  obtain ⟨m, hm⟩ := exists_significand (show rounded ≤ 2 * hiddenUnit by omega)
  obtain ⟨hmleast, -⟩ := significand_bounds hpositive rfl hm
  have hsecond := shiftToTargetExponent_eq hlog (e := e + (size.log2 - 52 : Nat)) (by omega)
  have hlast : rounded / 2 ^ (rounded.log2 - 52) = m := by
    have hsplit : 2 ^ rounded.log2 = 2 ^ (rounded.log2 - 52) * hiddenUnit := by
      rw [hiddenUnit_eq, ← pow_add, Nat.sub_add_cancel hlog]
    rw [hsplit, ← Nat.mul_assoc] at hm
    exact Nat.div_eq_of_eq_mul_left (Nat.two_pow_pos _)
      (Nat.eq_of_mul_eq_mul_right (by decide) hm).symm
  have hpos : 0 < m := hiddenUnit_pos.trans_le hmleast
  refine ⟨rounded, m, hpos, ?_, hm, hnormal.trans hleast, hgreatest, hle⟩
  have hexponent : e + (size.log2 - 52 : Nat) + (rounded.log2 - 52 : Nat)
      = (top : Int) + rounded.log2 - 104 := by
    omega
  simp only [UnpackedFloat.roundWithAccuracy, hfirst, hrounded, hsecond, mantissa_shiftRight, hlast,
    hexponent, hpos.ne', dite_false]

/-! ## Bits -/

section

variable {top m : Nat}

theorem toNat_fraction (hm : IsNormal top m) : (BitVec.ofNat 52 m).toNat = m - hiddenUnit := by
  have hgreatest := hm.greatest
  rw [BitVec.toNat_ofNat, ← hiddenUnit_eq, Nat.mod_eq_sub_mod hm.least, Nat.mod_eq_of_lt (by omega)]

theorem toNat_biasedExponent (hm : IsNormal top m) :
    (BitVec.ofNat 11 (1023 + top)).toNat = 1023 + top := by
  have htop := hm.top_le
  exact Nat.mod_eq_of_lt (by omega)

theorem toBitVec_ofLeading (hm : IsNormal top m) :
    (ofLeading top m).bits.toBitVec
      = UnpackedFloat.packComponents .binary64 .positive (BitVec.ofNat 11 (1023 + top))
          (BitVec.ofNat 52 m) := by
  refine BitVec.eq_of_toNat_eq ?_
  have hleast := hm.least
  have hor := Nat.shiftLeft_add_eq_or_of_lt (BitVec.ofNat 52 m).isLt (1023 + top)
  rw [UInt64.toNat_toBitVec, toNat_bits_ofLeading hm, UnpackedFloat.packComponents,
    BitVec.toNat_append, BitVec.toNat_append, toNat_biasedExponent hm,
    show Sign.positive.toBitVec.toNat = 0 from rfl, Nat.zero_shiftLeft, Nat.zero_or, ← hor,
    toNat_fraction hm, Nat.shiftLeft_eq, ← hiddenUnit_eq, Nat.add_mul, Nat.add_mul]
  omega

theorem pack_normal (hm : IsNormal top m) :
    (Float.Model.pack (.finite .positive m ((top : Int) - 52) hm.pos)).toBits
      = (ofLeading top m).bits := by
  have hlog : m.log2 = 52 := (Nat.log2_eq_iff hm.pos.ne').mpr ⟨hm.least, hm.greatest⟩
  have hbiased : ((top : Int) - 52 + (Format.exponentBias .binary64 : Nat) + (52 : Nat)).toNat
      = 1023 + top := by
    have : Format.exponentBias .binary64 = 1023 := rfl
    omega
  have htop := hm.top_le
  have hpack : UnpackedFloat.pack .binary64 (.finite .positive m ((top : Int) - 52) hm.pos)
      = (ofLeading top m).bits.toBitVec := by
    rw [toBitVec_ofLeading hm, UnpackedFloat.pack, hlog]
    simp only [hbiased]
    rw [if_neg (by omega), if_pos (by rfl)]
  exact UInt64.toBitVec_inj.mp hpack

theorem unpackSign_packComponents (s : Sign) (e : BitVec 11) (m : BitVec 52) :
    UnpackedFloat.unpackSign (UnpackedFloat.packComponents .binary64 s e m) = s.toBitVec := by
  refine BitVec.eq_of_getLsbD_eq fun i hi => ?_
  obtain rfl : i = 0 := Nat.lt_one_iff.mp hi
  rw [UnpackedFloat.unpackSign, UnpackedFloat.packComponents, BitVec.getLsbD_cast,
    BitVec.getLsbD_extractLsb, BitVec.getLsbD_append, BitVec.getLsbD_append]
  simp

theorem unpack_ofLeading (hm : IsNormal top m) :
    UnpackedFloat.unpack .binary64 (ofLeading top m).bits.toBitVec
      = .finite .positive m ((top : Int) - 52) hm.pos := by
  have htop := hm.top_le
  have hleast := hm.least
  have hexponent := toNat_biasedExponent hm
  have hsome : BitVec.ofNat 11 (1023 + top) ≠ -1#11 := by
    intro hall
    rw [hall] at hexponent
    have : (-1#11).toNat = 2047 := rfl
    omega
  have hnormal : BitVec.ofNat 11 (1023 + top) ≠ 0#11 := by
    intro hzero
    rw [hzero] at hexponent
    have : (0#11).toNat = 0 := rfl
    omega
  have hsignificand : (1#1 ++ BitVec.ofNat 52 m).toNat = m := by
    have hor := Nat.shiftLeft_add_eq_or_of_lt (BitVec.ofNat 52 m).isLt 1
    rw [BitVec.toNat_append, show (1#1).toNat = 1 from rfl, ← hor, toNat_fraction hm,
      Nat.one_shiftLeft, ← hiddenUnit_eq]
    omega
  rw [toBitVec_ofLeading hm, UnpackedFloat.unpack]
  simp only [UnpackedFloat.unpackExponent_packComponents,
    UnpackedFloat.unpackMantissa_packComponents, unpackSign_packComponents]
  rw [if_neg hsome, if_neg hnormal]
  have hbias : Format.exponentBias .binary64 = 1023 := rfl
  simp only [hsignificand, hexponent, hbias, UnpackedFloat.finite.injEq]
  exact ⟨rfl, trivial, by omega⟩

theorem unpack_toFloat (hm : IsNormal top m) :
    (ofLeading top m).toFloat.toModel.unpack = .finite .positive m ((top : Int) - 52) hm.pos := by
  show UnpackedFloat.unpack .binary64 (Float.Model.ofBits (ofLeading top m).bits).toBits.toBitVec = _
  rw [Float.Model.ofBits, unpack_ofLeading hm, pack_normal hm, unpack_ofLeading hm]

end

theorem log2_rounded_lt {size rounded unit top limit : Nat} (hpositive : rounded ≠ 0)
    (hunit : 0 < unit) (hlarge : hiddenUnit * unit ≤ size) (hrounded : rounded ≤ size / unit + 1)
    (hbelow : size * 2 ^ top < (2 * hiddenUnit - 1) * unit * 2 ^ limit) :
    rounded.log2 + top < 53 + limit := by
  have hquotient : size / unit * 2 ^ top < (2 * hiddenUnit - 1) * 2 ^ limit := by
    refine Nat.lt_of_mul_lt_mul_right (a := unit) ?_
    calc size / unit * 2 ^ top * unit = size / unit * unit * 2 ^ top := by ring
      _ ≤ size * 2 ^ top := by gcongr; exact Nat.div_mul_le_self size unit
      _ < (2 * hiddenUnit - 1) * unit * 2 ^ limit := hbelow
      _ = (2 * hiddenUnit - 1) * 2 ^ limit * unit := by ring
  have htop : 2 ^ top ≤ 2 ^ limit := by
    have hleast : hiddenUnit ≤ size / unit := (Nat.le_div_iff_mul_le hunit).mpr hlarge
    have hlt : hiddenUnit * 2 ^ top < hiddenUnit * 2 ^ (limit + 1) := by
      calc hiddenUnit * 2 ^ top ≤ size / unit * 2 ^ top := by gcongr
        _ < (2 * hiddenUnit - 1) * 2 ^ limit := hquotient
        _ ≤ 2 * hiddenUnit * 2 ^ limit := by gcongr; exact Nat.sub_le _ _
        _ = hiddenUnit * 2 ^ (limit + 1) := by ring
    have hpow : 2 ^ top < 2 ^ (limit + 1) := Nat.lt_of_mul_lt_mul_left hlt
    exact Nat.pow_le_pow_right (by decide)
      (Nat.lt_succ_iff.mp ((Nat.pow_lt_pow_iff_right (by decide)).mp hpow))
  refine (Nat.pow_lt_pow_iff_right (a := 2) (by decide)).mp ?_
  calc 2 ^ (rounded.log2 + top) = 2 ^ rounded.log2 * 2 ^ top := pow_add 2 _ _
    _ ≤ rounded * 2 ^ top := by gcongr; exact Nat.log2_self_le hpositive
    _ ≤ (size / unit + 1) * 2 ^ top := by gcongr
    _ = size / unit * 2 ^ top + 2 ^ top := by ring
    _ < (2 * hiddenUnit - 1) * 2 ^ limit + 2 ^ limit := Nat.add_lt_add_of_lt_of_le hquotient htop
    _ = 2 * hiddenUnit * 2 ^ limit := by
      rw [← Nat.succ_mul]
      rfl
    _ = 2 ^ (53 + limit) := (pow_add 2 53 limit).symm

/-- What is below the largest double is rounded to a double, up by at most half of its last
place. -/
theorem pack_round {size top : Nat} {e : Int} (hsize : size ≠ 0) (hlong : 52 ≤ size.log2)
    (htop : e + size.log2 = top)
    (hbelow : size * 2 ^ top < (2 * hiddenUnit - 1) * 2 ^ (size.log2 - 52) * 2 ^ 1023) :
    ∃ top' m, (Float.Model.pack
          (UnpackedFloat.roundWithAccuracy .binary64 .positive size e .exact)).toBits
        = (ofLeading top' m).bits ∧ IsNormal top' m ∧
      2 * (m * 2 ^ top' * 2 ^ size.log2) ≤ (2 * hiddenUnit + 1) * (size * 2 ^ top) := by
  obtain ⟨rounded, m, hpos, hround, hm, hnormal, hgreatest, hle⟩ :=
    roundWithAccuracy_eq hsize hlong htop .positive
  have hpositive : rounded ≠ 0 := (hiddenUnit_pos.trans_le hnormal).ne'
  have hlog : 52 ≤ rounded.log2 := (Nat.le_log2 hpositive).mpr hnormal
  obtain ⟨hmleast, hmgreatest⟩ := significand_bounds hpositive rfl hm
  have hunit : 2 ^ size.log2 = hiddenUnit * 2 ^ (size.log2 - 52) := by
    rw [hiddenUnit_eq, ← pow_add, Nat.add_sub_cancel' hlong]
  have hlarge : hiddenUnit * 2 ^ (size.log2 - 52) ≤ size := hunit ▸ Nat.log2_self_le hsize
  have htop' : top + rounded.log2 - 52 ≤ 1023 := by
    have := log2_rounded_lt hpositive (Nat.two_pow_pos _) hlarge hgreatest hbelow
    omega
  refine ⟨top + rounded.log2 - 52, m, ?_, ⟨htop', hmleast, hmgreatest⟩, ?_⟩
  · have hexponent : (top : Int) + rounded.log2 - 104 = (top + rounded.log2 - 52 : Nat) - 52 := by
      omega
    rw [hround]
    simp only [hexponent]
    exact pack_normal ⟨htop', hmleast, hmgreatest⟩
  · have hvalue : m * 2 ^ (top + rounded.log2 - 52) * hiddenUnit
        = rounded * 2 ^ top * hiddenUnit := by
      rw [Nat.mul_assoc, hiddenUnit_eq, ← pow_add, show top + rounded.log2 - 52 + 52
        = rounded.log2 + top by omega, pow_add, ← Nat.mul_assoc, hm, hiddenUnit_eq]
      ring
    calc 2 * (m * 2 ^ (top + rounded.log2 - 52) * 2 ^ size.log2)
        = 2 * (rounded * 2 ^ (size.log2 - 52)) * (2 ^ top * hiddenUnit) := by
          rw [hunit, ← Nat.mul_assoc (m * _), hvalue]
          ring
      _ ≤ (2 * size + 2 ^ (size.log2 - 52)) * (2 ^ top * hiddenUnit) := by gcongr
      _ = 2 * size * (2 ^ top * hiddenUnit) + hiddenUnit * 2 ^ (size.log2 - 52) * 2 ^ top := by ring
      _ ≤ 2 * size * (2 ^ top * hiddenUnit) + size * 2 ^ top := by gcongr
      _ = (2 * hiddenUnit + 1) * (size * 2 ^ top) := by ring

/-! ## Products -/

section

variable {top top' m m' : Nat}

theorem ofFloat_mul (f g : Binary64) :
    ofFloat (f.toFloat * g.toFloat)
      = ⟨(Float.Model.pack (UnpackedFloat.mul .binary64 f.toFloat.toModel.unpack
          g.toFloat.toModel.unpack)).toBits⟩ := rfl

theorem settle_of_isFinite {f g result : Binary64} (hresult : result.isFinite = true) :
    settle f g result = result := by
  rw [settle, isNaN_of_isFinite hresult]
  rfl

/-- A product below the largest double is not infinite. -/
theorem isFinite_mul (hm : IsNormal top m) (hm' : IsNormal top' m')
    (hbelow : m * m' * 2 ^ (top + top') < (2 * hiddenUnit - 1) * hiddenUnit * 2 ^ 1023) :
    ((ofLeading top m).mul (ofLeading top' m')).isFinite = true := by
  have hlarge : 2 ^ 104 ≤ m * m' := by
    rw [show 2 ^ 104 = hiddenUnit * hiddenUnit from rfl]
    exact Nat.mul_le_mul hm.least hm'.least
  have hsize : m * m' ≠ 0 := (Nat.mul_pos hm.pos hm'.pos).ne'
  have hlong : 104 ≤ (m * m').log2 := (Nat.le_log2 hsize).mpr hlarge
  have hproduct := ofFloat_mul (ofLeading top m) (ofLeading top' m')
  rw [unpack_toFloat hm, unpack_toFloat hm'] at hproduct
  have hlead : (top : Int) - 52 + (top' - 52) + (m * m').log2
      = (top + top' + ((m * m').log2 - 104) : Nat) := by
    omega
  have hbelow' : m * m' * 2 ^ (top + top' + ((m * m').log2 - 104))
      < (2 * hiddenUnit - 1) * 2 ^ ((m * m').log2 - 52) * 2 ^ 1023 := by
    rw [pow_add, ← Nat.mul_assoc, show (m * m').log2 - 52 = 52 + ((m * m').log2 - 104) by omega,
      pow_add 2 52, ← hiddenUnit_eq, ← Nat.mul_assoc, Nat.mul_right_comm _ _ (2 ^ 1023)]
    exact Nat.mul_lt_mul_of_pos_right hbelow (Nat.two_pow_pos _)
  obtain ⟨t, n, hround, hn, -⟩ := pack_round hsize (by omega) hlead hbelow'
  have hresult : ofFloat ((ofLeading top m).toFloat * (ofLeading top' m').toFloat)
      = ofLeading t n := by
    rw [hproduct]
    exact congrArg Binary64.mk hround
  show (settle _ _ (ofFloat (_ * _))).isFinite = true
  rw [hresult, settle_of_isFinite (isFinite_ofLeading hn)]
  exact isFinite_ofLeading hn

theorem zero_mul_ofLeading (hm : IsNormal top m) : zero.mul (ofLeading top m) = zero := by
  have hresult : ofFloat (zero.toFloat * (ofLeading top m).toFloat) = zero := by
    rw [ofFloat_mul, unpack_toFloat hm]
    rfl
  show settle _ _ (ofFloat (_ * _)) = zero
  rw [hresult]
  rfl

end

end LuaBytecode.Binary64

namespace LuaBytecode.Json.Numeral

open Binary64
open Float.Model (UnpackedFloat)

/-- The last place of the largest doubles. -/
@[irreducible]
def lastPlace : Nat := 2 ^ 971

/-- Half of this is below the largest double by more than two roundings add. -/
def safeBound : Nat := (4 * hiddenUnit - 7) * lastPlace

/-- The largest doubles between powers of two and powers of ten. -/
theorem lastPlace_bounds :
    0 < lastPlace ∧ 2 ^ 1023 = hiddenUnit * lastPlace ∧ lastPlace = 4 * 2 ^ 969 ∧
      lastPlace = 8 * 2 ^ 968 ∧ 2 ^ 53 * 10 ^ 308 < (2 * hiddenUnit - 1) * 2 * 2 ^ 1023 ∧
      safeBound < 2 * 10 ^ 309 := by
  decide +kernel

/-! ## Powers of ten -/

theorem log2_two_pow_mul {n : Nat} (hn : n ≠ 0) (k : Nat) : (2 ^ k * n).log2 = n.log2 + k := by
  induction k with
  | zero => simp
  | succ k ih =>
      rw [pow_succ', Nat.mul_assoc, Nat.log2_two_mul (Nat.mul_ne_zero (Nat.two_pow_pos k).ne' hn),
        ih, Nat.add_assoc]

/-- Beyond the table of exact powers, a power is rounded from a product of integers. -/
theorem powerOfTen_eq_round {n : Nat} (hlarge : 22 < n) (hn : n ≤ 308) :
    powerOfTen n = ⟨(Float.Model.pack (UnpackedFloat.roundWithAccuracy .binary64 .positive
      (2 ^ 53 * 10 ^ n) (-53) .exact)).toBits⟩ := by
  have hunpacked : UnpackedFloat.ofScientific .binary64 1 (Int.ofNat n)
      = UnpackedFloat.roundWithAccuracy .binary64 .positive (2 ^ 53 * 10 ^ n) (-53) .exact := by
    have hsafe : ¬ Int.ofNat n > 2 ^ 11 := by
      simp only [Int.ofNat_eq_natCast]
      omega
    have hpositive : ¬ Int.ofNat n < -((2 : Int) ^ 11 + Nat.log2 1) := by
      simp only [Int.ofNat_eq_natCast]
      omega
    rw [UnpackedFloat.ofScientific, dif_neg one_ne_zero, if_neg hsafe, if_neg hpositive,
      if_pos (show 0 ≤ Int.ofNat n from Int.natCast_nonneg n)]
    rfl
  rw [powerOfTen, Float.ofScientific, dif_neg (by omega), ← hunpacked]
  rfl

theorem powerOfTen_eq_ofLeading {n : Nat} (hn : n ≤ 308) :
    ∃ top m, powerOfTen n = ofLeading top m ∧ IsNormal top m ∧
      2 * (m * 2 ^ top) ≤ (2 * hiddenUnit + 1) * 10 ^ n := by
  by_cases hsmall : n ≤ 22
  · have htable : ∀ k ≤ 22, powerOfTen k = .ofNat false (10 ^ k) ∧ (10 ^ k).log2 < 1000 := by
      decide +kernel
    obtain ⟨heq, hlog⟩ := htable n hsmall
    obtain ⟨top, m, hof, hbounds⟩ :=
      ofNat_eq_ofLeading (Nat.pow_pos (by decide)).ne' (hlog.trans (by decide))
    exact ⟨top, m, heq.trans hof, hbounds⟩
  · have hpos : 10 ^ n ≠ 0 := (Nat.pow_pos (by decide)).ne'
    have hlog := log2_two_pow_mul hpos 53
    have hbelow : 2 ^ 53 * 10 ^ n * 2 ^ (10 ^ n).log2
        < (2 * hiddenUnit - 1) * 2 ^ ((2 ^ 53 * 10 ^ n).log2 - 52) * 2 ^ 1023 := by
      obtain ⟨-, -, -, -, hlast, -⟩ := lastPlace_bounds
      have hgreatest : 2 ^ 53 * 10 ^ n < (2 * hiddenUnit - 1) * 2 * 2 ^ 1023 := by
        refine lt_of_le_of_lt ?_ hlast
        gcongr
        decide
      have hshift : (2 ^ 53 * 10 ^ n).log2 - 52 = 1 + (10 ^ n).log2 := by omega
      rw [hshift, pow_add, pow_one, ← Nat.mul_assoc, Nat.mul_right_comm _ _ (2 ^ 1023)]
      exact Nat.mul_lt_mul_of_pos_right hgreatest (Nat.two_pow_pos _)
    obtain ⟨top, m, hround, hm, hle⟩ :=
      pack_round (e := -53) (Nat.mul_ne_zero (by decide) hpos) (by omega) (by omega) hbelow
    refine ⟨top, m, ?_, hm, ?_⟩
    · rw [powerOfTen_eq_round (by omega) hn, hround]
    · rw [hlog, pow_add] at hle
      have hfactor : 0 < 2 ^ (10 ^ n).log2 * 2 ^ 53 := by positivity
      -- as numerals these powers would be multiplied out
      generalize 2 ^ (10 ^ n).log2 = leading at *
      generalize 2 ^ 53 = bits at *
      refine Nat.le_of_mul_le_mul_right ?_ hfactor
      calc 2 * (m * 2 ^ top) * (leading * bits) = 2 * (m * 2 ^ top * (leading * bits)) := by ring
        _ ≤ (2 * hiddenUnit + 1) * (bits * 10 ^ n * leading) := hle
        _ = (2 * hiddenUnit + 1) * 10 ^ n * (leading * bits) := by ring

/-! ## Scaling -/

theorem scale_succ (steps : Nat) (f : Binary64) (exponent : Int) :
    scale (steps + 1) f exponent =
      if exponent.natAbs ≤ 308 then
        if 0 ≤ exponent then
          if (f.mul (powerOfTen exponent.natAbs)).isInfinite then none
          else some (f.mul (powerOfTen exponent.natAbs))
        else some (f.div (powerOfTen exponent.natAbs))
      else if f.magnitude = 0 then some f
      else if 0 ≤ exponent then none
      else scale steps (f.div (powerOfTen 308)) (exponent + 308) := rfl

theorem scale_of_neg (steps : Nat) (f : Binary64) {exponent : Int} (hneg : exponent < 0) :
    ∃ g, scale steps f exponent = some g := by
  induction steps generalizing f exponent with
  | zero => exact ⟨f, rfl⟩
  | succ steps ih =>
      rw [scale_succ]
      by_cases hnear : exponent.natAbs ≤ 308
      · rw [if_pos hnear, if_neg (by omega)]
        exact ⟨_, rfl⟩
      · rw [if_neg hnear]
        by_cases hzero : f.magnitude = 0
        · rw [if_pos hzero]
          exact ⟨f, rfl⟩
        · rw [if_neg hzero, if_neg (by omega)]
          exact ih _ (by omega)

theorem scaled_lt {a b n p unit : Nat} (hunit : 0 < unit)
    (ha : 2 * a ≤ (2 * hiddenUnit + 1) * n) (hb : 2 * b ≤ (2 * hiddenUnit + 1) * p)
    (hsmall : 2 * (n * p) ≤ (4 * hiddenUnit - 7) * unit) :
    a * b < (2 * hiddenUnit - 1) * hiddenUnit * hiddenUnit * unit := by
  refine Nat.lt_of_mul_lt_mul_left (a := 8) ?_
  calc 8 * (a * b) = 2 * (2 * a * (2 * b)) := by ring
    _ ≤ 2 * ((2 * hiddenUnit + 1) * n * ((2 * hiddenUnit + 1) * p)) := by gcongr
    _ = (2 * hiddenUnit + 1) ^ 2 * (2 * (n * p)) := by ring
    _ ≤ (2 * hiddenUnit + 1) ^ 2 * ((4 * hiddenUnit - 7) * unit) := by gcongr
    _ = (2 * hiddenUnit + 1) ^ 2 * (4 * hiddenUnit - 7) * unit := by ring
    _ < 8 * ((2 * hiddenUnit - 1) * hiddenUnit * hiddenUnit) * unit :=
      Nat.mul_lt_mul_of_pos_right (by decide) hunit
    _ = 8 * ((2 * hiddenUnit - 1) * hiddenUnit * hiddenUnit * unit) := by ring

theorem scale_of_isFinite (steps : Nat) {f : Binary64} {n : Nat} (hn : n ≤ 308)
    (hproduct : (f.mul (powerOfTen n)).isFinite = true) :
    scale (steps + 1) f n = some (f.mul (powerOfTen n)) := by
  have hfinite := isInfinite_of_isFinite hproduct
  rw [scale_succ, Int.natAbs_natCast, if_pos hn, if_pos (Int.natCast_nonneg n), hfinite,
    if_neg Bool.false_ne_true]

theorem isFinite_mul_powerOfTen {significand n : Nat} (hpositive : significand ≠ 0)
    (hsignificand : significand ≤ significandLimit) (hn : n ≤ 308)
    (hsmall : 2 * (significand * 10 ^ n) ≤ safeBound) :
    ((Binary64.ofNat false significand).mul (powerOfTen n)).isFinite = true := by
  have hlog : significand.log2 < 64 :=
    (Nat.log2_lt hpositive).mpr (lt_of_le_of_lt hsignificand (by decide))
  obtain ⟨top, m, hof, hm, hle⟩ := ofNat_eq_ofLeading hpositive (hlog.trans (by decide))
  obtain ⟨top', m', hpower, hm', hle'⟩ := powerOfTen_eq_ofLeading hn
  rw [hof, hpower]
  refine isFinite_mul hm hm' ?_
  obtain ⟨hpos, hplace, -⟩ := lastPlace_bounds
  rw [hplace]
  calc m * m' * 2 ^ (top + top') = m * 2 ^ top * (m' * 2 ^ top') := by rw [pow_add]; ring
    _ < (2 * hiddenUnit - 1) * hiddenUnit * hiddenUnit * lastPlace :=
      scaled_lt hpos hle hle' hsmall
    _ = (2 * hiddenUnit - 1) * hiddenUnit * (hiddenUnit * lastPlace) := Nat.mul_assoc _ _ _

/-- Digits and a power of ten have a value when they are not too large. -/
theorem exists_ofParts (negative : Bool) {significand : Nat} {exponent : Int}
    (hsignificand : significand ≤ significandLimit)
    (hsmall : 0 ≤ exponent → 2 * (significand * 10 ^ exponent.toNat) ≤ safeBound) :
    ∃ j, ofParts negative significand exponent = some j := by
  have hscale : ∃ g, scale 4 (.ofNat false significand) exponent = some g := by
    rcases lt_or_ge exponent 0 with hneg | hnonneg
    · exact scale_of_neg 4 _ hneg
    · obtain ⟨n, rfl⟩ := Int.eq_ofNat_of_zero_le hnonneg
      rw [Int.toNat_natCast] at hsmall
      by_cases hpositive : significand = 0
      · subst hpositive
        by_cases hn : n ≤ 308
        · obtain ⟨top, m, hpower, hm, -⟩ := powerOfTen_eq_ofLeading hn
          refine ⟨_, scale_of_isFinite 3 hn ?_⟩
          rw [hpower, show Binary64.ofNat false 0 = zero from rfl, zero_mul_ofLeading hm]
          rfl
        · rw [scale_succ, Int.natAbs_natCast, if_neg hn, if_pos (by decide)]
          exact ⟨_, rfl⟩
      · have hn : n ≤ 308 := by
          by_contra hlarge
          have hpower {k : Nat} (hk : k ≤ n) : 10 ^ k ≤ significand * 10 ^ n :=
            (Nat.pow_le_pow_right (by decide) hk).trans
              (Nat.le_mul_of_pos_left _ (Nat.pos_of_ne_zero hpositive))
          obtain ⟨-, -, -, -, -, hbound⟩ := lastPlace_bounds
          refine hbound.not_ge ((Nat.mul_le_mul_left 2 (hpower ?_)).trans (hsmall hnonneg))
          omega
        exact ⟨_, scale_of_isFinite 3 hn
          (isFinite_mul_powerOfTen hpositive hsignificand hn (hsmall hnonneg))⟩
  obtain ⟨g, hg⟩ := hscale
  rw [ofParts, hg]
  exact ⟨_, rfl⟩

end LuaBytecode.Json.Numeral
