import Mathlib
import LuaBytecode.Binary64
import LuaBytecode.Proofs.Rounding

/-! # What doubles stand for

A double that is not a NaN stands for a rational number or for one of the two infinities. The
size of a finite number is its significand times a power of two. Counted up from zero, the sizes
of the doubles grow from each to the next: within a power of two by one unit of the significand,
and from a power of two to the next by a last unit as well. So the order that is worked out on the
bits is the order of the exact values, and truncation on the bits is truncation of the values.
-/

namespace LuaBytecode

/-- Rational numbers and two infinities. -/
abbrev ExactValue := WithBot (WithTop ℚ)

namespace ExactValue

/-- A finite value. -/
def ofRat (q : ℚ) : ExactValue := ((q : WithTop ℚ) : WithBot (WithTop ℚ))

variable {p q : ℚ}

@[simp]
theorem ofRat_lt_ofRat : ofRat p < ofRat q ↔ p < q := by
  rw [ofRat, ofRat, WithBot.coe_lt_coe, WithTop.coe_lt_coe]

@[simp]
theorem ofRat_le_ofRat : ofRat p ≤ ofRat q ↔ p ≤ q := by
  rw [ofRat, ofRat, WithBot.coe_le_coe, WithTop.coe_le_coe]

@[simp]
theorem ofRat_inj : ofRat p = ofRat q ↔ p = q := by
  rw [ofRat, ofRat, WithBot.coe_inj, WithTop.coe_inj]

@[simp]
theorem ofRat_lt_top : ofRat p < ⊤ := WithBot.coe_lt_coe.mpr (WithTop.coe_lt_top p)

@[simp]
theorem bot_lt_ofRat : ⊥ < ofRat p := WithBot.bot_lt_coe _

end ExactValue

open ExactValue (ofRat)

namespace Binary64

/-! ## Values -/

/-- How large a finite number is. -/
def size (f : Binary64) : ℚ := f.significand * 2 ^ f.exponent

/-- The value of a finite number. -/
def toRat (f : Binary64) : ℚ := if f.isNegative then -f.size else f.size

/-- What a double stands for; a NaN stands for nothing. -/
def value? (f : Binary64) : Option ExactValue :=
  if f.isNaN then none
  else if f.isInfinite then some (if f.isNegative then ⊥ else ⊤)
  else some (ofRat f.toRat)

variable {f g : Binary64}

theorem size_nonneg (f : Binary64) : 0 ≤ f.size := by
  unfold size
  positivity

/-! ## The doubles in order -/

/-- The size that belongs to the bits below the sign. -/
def sizeAt (m : Nat) : ℚ :=
  (if m / hiddenUnit = 0 then m % hiddenUnit else m % hiddenUnit + hiddenUnit : Nat) *
    2 ^ (((max (m / hiddenUnit) 1 : Nat) : Int) - 1075)

theorem size_eq_sizeAt (f : Binary64) : f.size = sizeAt f.magnitude := rfl

theorem sizeAt_subnormal {r : Nat} (hr : r < hiddenUnit) :
    sizeAt r = r * 2 ^ (-1074 : Int) := by
  rw [sizeAt, Nat.div_eq_of_lt hr, Nat.mod_eq_of_lt hr]
  rfl

theorem sizeAt_normal {e r : Nat} (he : 0 < e) (hr : r < hiddenUnit) :
    sizeAt (e * hiddenUnit + r) = (r + hiddenUnit : Nat) * 2 ^ ((e : Int) - 1075) := by
  have hdiv : (e * hiddenUnit + r) / hiddenUnit = e := by
    rw [Nat.mul_comm, Nat.mul_add_div hiddenUnit_pos, Nat.div_eq_of_lt hr, Nat.add_zero]
  have hmod : (e * hiddenUnit + r) % hiddenUnit = r := by
    rw [Nat.mul_comm, Nat.mul_add_mod, Nat.mod_eq_of_lt hr]
  rw [sizeAt, hdiv, hmod, if_neg he.ne', max_eq_left he]

@[simp]
theorem sizeAt_zero : sizeAt 0 = 0 := by
  rw [sizeAt_subnormal hiddenUnit_pos, Nat.cast_zero, zero_mul]

/-- Within a power of two the next double has the next significand; the last of them is followed by
the next power of two. -/
theorem sizeAt_lt_succ (m : Nat) : sizeAt m < sizeAt (m + 1) := by
  obtain ⟨e, r, hr, rfl⟩ : ∃ e r, r < hiddenUnit ∧ m = e * hiddenUnit + r :=
    ⟨m / hiddenUnit, m % hiddenUnit, Nat.mod_lt _ hiddenUnit_pos, (Nat.div_add_mod' _ _).symm⟩
  have hpow (n : Int) : (0 : ℚ) < 2 ^ n := by positivity
  rcases Nat.eq_zero_or_pos e with rfl | he
  · rw [Nat.zero_mul, Nat.zero_add]
    rcases Nat.lt_or_ge (r + 1) hiddenUnit with hnext | hlast
    · rw [sizeAt_subnormal hr, sizeAt_subnormal hnext]
      exact mul_lt_mul_of_pos_right (Nat.cast_lt.mpr r.lt_succ_self) (hpow _)
    · have hunit : r + 1 = 1 * hiddenUnit + 0 := by omega
      rw [hunit, sizeAt_subnormal hr, sizeAt_normal Nat.one_pos hiddenUnit_pos]
      exact mul_lt_mul_of_pos_right (Nat.cast_lt.mpr (by omega)) (hpow _)
  · rcases Nat.lt_or_ge (r + 1) hiddenUnit with hnext | hlast
    · rw [Nat.add_assoc, sizeAt_normal he hr, sizeAt_normal he hnext]
      exact mul_lt_mul_of_pos_right (Nat.cast_lt.mpr (by omega)) (hpow _)
    · have hunit : e * hiddenUnit + r + 1 = (e + 1) * hiddenUnit + 0 := by
        rw [Nat.add_mul]
        omega
      have hdouble : ((e + 1 : Nat) : Int) - 1075 = ((e : Int) - 1075) + 1 := by omega
      rw [hunit, sizeAt_normal he hr, sizeAt_normal e.succ_pos hiddenUnit_pos, hdouble,
        zpow_add_one₀ two_ne_zero, mul_comm _ (2 : ℚ), ← mul_assoc]
      refine mul_lt_mul_of_pos_right ?_ (hpow _)
      have hlt : r + hiddenUnit < (0 + hiddenUnit) * 2 := by omega
      exact_mod_cast hlt

theorem strictMono_sizeAt : StrictMono sizeAt := strictMono_nat_of_lt_succ sizeAt_lt_succ

/-- The value that stands at a place on the number line. -/
def valueAt (n : Int) : ℚ := if n < 0 then -sizeAt n.natAbs else sizeAt n.natAbs

theorem toRat_eq_valueAt (f : Binary64) : f.toRat = valueAt f.ordinal := by
  unfold toRat ordinal valueAt
  rw [size_eq_sizeAt]
  cases f.isNegative with
  | false => simp
  | true =>
      by_cases hzero : f.magnitude = 0
      · simp [hzero]
      · simp [hzero]

theorem strictMono_valueAt : StrictMono valueAt := by
  intro m n hlt
  have hnonneg (k : Nat) : 0 ≤ sizeAt k := sizeAt_zero ▸ strictMono_sizeAt.monotone k.zero_le
  unfold valueAt
  split_ifs with hm hn
  · exact neg_lt_neg (strictMono_sizeAt (by omega))
  · have hpos : 0 < sizeAt m.natAbs := sizeAt_zero ▸ strictMono_sizeAt (by omega)
    exact (neg_lt_zero.mpr hpos).trans_le (hnonneg _)
  · omega
  · exact strictMono_sizeAt (by omega)

/-- What stands at a place on the number line, the infinities included. -/
def extendedAt (n : Int) : ExactValue :=
  if n = infiniteMagnitude then ⊤
  else if n = -infiniteMagnitude then ⊥
  else ofRat (valueAt n)

theorem strictMonoOn_extendedAt :
    StrictMonoOn extendedAt (Set.Icc (-infiniteMagnitude : Int) infiniteMagnitude) := by
  rintro m ⟨hm, -⟩ n ⟨-, hn⟩ hlt
  unfold extendedAt
  rw [if_neg (by omega : ¬ m = infiniteMagnitude), if_neg (by omega : ¬ n = -infiniteMagnitude)]
  split_ifs with hleast hgreatest
  · exact bot_lt_top
  · exact ExactValue.bot_lt_ofRat
  · exact ExactValue.ofRat_lt_top
  · exact ExactValue.ofRat_lt_ofRat.mpr (strictMono_valueAt hlt)

theorem ordinal_mem (hf : f.isNaN = false) :
    f.ordinal ∈ Set.Icc (-infiniteMagnitude : Int) infiniteMagnitude := by
  have hle : f.magnitude ≤ infiniteMagnitude := Nat.not_lt.mp (of_decide_eq_false hf)
  unfold ordinal
  constructor
  · split_ifs <;> omega
  · split_ifs <;> omega

theorem value?_of_isNaN (hf : f.isNaN = true) : f.value? = none := if_pos hf

theorem value?_eq_extendedAt (hf : f.isNaN = false) : f.value? = some (extendedAt f.ordinal) := by
  have hpos : 0 < infiniteMagnitude := by decide
  unfold value? extendedAt
  rw [hf, if_neg Bool.false_ne_true, ← toRat_eq_valueAt]
  by_cases hinf : f.magnitude = infiniteMagnitude
  · have hinfinite : f.isInfinite = true := decide_eq_true hinf
    rw [hinfinite, if_pos rfl]
    unfold ordinal
    cases f.isNegative with
    | false => simp [hinf]
    | true =>
        have hne : ¬ -(infiniteMagnitude : Int) = infiniteMagnitude := by omega
        simp [hinf, hne]
  · have hinfinite : f.isInfinite = false := decide_eq_false hinf
    rw [hinfinite, if_neg Bool.false_ne_true]
    have hplace : f.ordinal = f.magnitude ∨ f.ordinal = -f.magnitude := by
      unfold ordinal
      split_ifs
      · exact .inr rfl
      · exact .inl rfl
    rw [if_neg (by omega), if_neg (by omega)]

/-! ## Order -/

theorem isNaN_of_value? {x : ExactValue} (hf : f.value? = some x) : f.isNaN = false := by
  cases hnan : f.isNaN with
  | false => rfl
  | true =>
      rw [value?_of_isNaN hnan] at hf
      cases hf

theorem value?_eq_none_iff : f.value? = none ↔ f.isNaN = true := by
  constructor
  · intro hf
    by_contra hnan
    rw [value?_eq_extendedAt (Bool.eq_false_iff.mpr hnan)] at hf
    cases hf
  · exact value?_of_isNaN

/-- The order of the bits is the order of the exact values. -/
theorem compare?_of_value? {x y : ExactValue} (hf : f.value? = some x) (hg : g.value? = some y) :
    f.compare? g = some (compare x y) := by
  have hfn := isNaN_of_value? hf
  have hgn := isNaN_of_value? hg
  rw [value?_eq_extendedAt hfn] at hf
  rw [value?_eq_extendedAt hgn] at hg
  cases hf
  cases hg
  rw [compare?, hfn, hgn, Bool.or_false, if_neg Bool.false_ne_true, ← cmp_eq_compare,
    ← cmp_eq_compare, strictMonoOn_extendedAt.cmp_map_eq (ordinal_mem hfn) (ordinal_mem hgn)]

theorem compare?_eq_none_iff :
    f.compare? g = none ↔ f.isNaN = true ∨ g.isNaN = true := by
  rw [compare?, ← Bool.or_eq_true]
  split_ifs with hnan
  · exact iff_of_true rfl hnan
  · exact iff_of_false nofun hnan

theorem lt_iff {x y : ExactValue} (hf : f.value? = some x) (hg : g.value? = some y) :
    f.lt g = true ↔ x < y := by
  rw [lt, compare?_of_value? hf hg, beq_iff_eq, Option.some_inj, compare_lt_iff_lt]

theorem le_iff {x y : ExactValue} (hf : f.value? = some x) (hg : g.value? = some y) :
    f.le g = true ↔ x ≤ y := by
  rw [le, compare?_of_value? hf hg, Bool.or_eq_true, beq_iff_eq, beq_iff_eq, Option.some_inj,
    Option.some_inj, compare_lt_iff_lt, compare_eq_iff_eq, le_iff_lt_or_eq]

/-! ## Integer parts -/

theorem size_of_nonneg (hexponent : 0 ≤ f.exponent) :
    f.size = (f.significand <<< f.exponent.toNat : Nat) := by
  have hpow : (2 : ℚ) ^ f.exponent = 2 ^ f.exponent.toNat := by
    rw [← zpow_natCast, Int.toNat_of_nonneg hexponent]
  rw [size, hpow, Nat.shiftLeft_eq, Nat.cast_mul, Nat.cast_pow, Nat.cast_ofNat]

theorem size_of_neg (hexponent : f.exponent < 0) :
    f.size = f.significand / (2 ^ (-f.exponent).toNat : Nat) := by
  have hpow : (2 : ℚ) ^ f.exponent = (2 ^ (-f.exponent).toNat)⁻¹ := by
    rw [← zpow_natCast, ← zpow_neg, Int.toNat_of_nonneg (by omega), neg_neg]
  rw [size, hpow, div_eq_mul_inv, Nat.cast_pow, Nat.cast_ofNat]

theorem floor_size (f : Binary64) :
    ⌊f.size⌋₊ = if 0 ≤ f.exponent then f.significand <<< f.exponent.toNat
      else f.significand >>> (-f.exponent).toNat := by
  split_ifs with hexponent
  · rw [size_of_nonneg hexponent, Nat.floor_natCast]
  · rw [size_of_neg (by omega), Nat.floor_div_eq_div, Nat.shiftRight_eq_div_pow]

theorem integerPart_eq (f : Binary64) :
    f.integerPart = if f.isNegative then -(⌊f.size⌋₊ : Int) else ⌊f.size⌋₊ := by
  rw [floor_size]
  rfl

/-- The integer part is less than one away. -/
theorem integerPart_near (f : Binary64) :
    (f.integerPart : ℚ) - 1 < f.toRat ∧ f.toRat < f.integerPart + 1 := by
  have hle := Nat.floor_le f.size_nonneg
  have hlt := Nat.lt_floor_add_one f.size
  rw [integerPart_eq, toRat]
  split_ifs
  · push_cast
    constructor <;> linarith
  · push_cast
    constructor <;> linarith

/-- The integer part lies toward zero. -/
theorem integerPart_inward (f : Binary64) :
    min 0 f.toRat ≤ f.integerPart ∧ (f.integerPart : ℚ) ≤ max 0 f.toRat := by
  have hle := Nat.floor_le f.size_nonneg
  have hnonneg : (0 : ℚ) ≤ (⌊f.size⌋₊ : ℚ) := Nat.cast_nonneg _
  rw [integerPart_eq, toRat]
  split_ifs
  · push_cast
    exact ⟨min_le_iff.mpr (.inr (by linarith)), le_max_iff.mpr (.inl (by linarith))⟩
  · push_cast
    exact ⟨min_le_iff.mpr (.inl hnonneg), le_max_iff.mpr (.inr hle)⟩

/-! ## Truncation -/

section

variable {negative : Bool} {m : Nat}

theorem toNat_bits_ofMagnitude (hm : m < signUnit) :
    (ofMagnitude negative m).bits.toNat = (if negative then signUnit else 0) + m := by
  refine UInt64.toNat_ofNat_of_lt ?_
  have hword : UInt64.size = 2 * signUnit := rfl
  split_ifs <;> omega

theorem magnitude_ofMagnitude (hm : m < signUnit) : (ofMagnitude negative m).magnitude = m := by
  rw [magnitude, toNat_bits_ofMagnitude hm]
  split_ifs
  · rw [Nat.add_mod_left, Nat.mod_eq_of_lt hm]
  · rw [Nat.zero_add, Nat.mod_eq_of_lt hm]

theorem isNegative_ofMagnitude (hm : m < signUnit) :
    (ofMagnitude negative m).isNegative = negative := by
  rw [isNegative, toNat_bits_ofMagnitude hm]
  cases negative with
  | false => exact decide_eq_false (by rw [if_neg Bool.false_ne_true]; omega)
  | true => exact decide_eq_true (by rw [if_pos rfl]; omega)

end

theorem infiniteMagnitude_lt_signUnit : infiniteMagnitude < signUnit := by decide

/-- What is below the point is cut off from the bits. -/
def cutMagnitude (f : Binary64) : Nat :=
  if 1075 ≤ f.biasedExponent then f.magnitude
  else if f.biasedExponent < 1023 then 0
  else f.magnitude / 2 ^ (1075 - f.biasedExponent) * 2 ^ (1075 - f.biasedExponent)

theorem cutMagnitude_le (f : Binary64) : f.cutMagnitude ≤ f.magnitude := by
  unfold cutMagnitude
  split_ifs
  · exact le_rfl
  · exact Nat.zero_le _
  · exact Nat.div_mul_le_self _ _

theorem ofMagnitude_magnitude (f : Binary64) : ofMagnitude f.isNegative f.magnitude = f := by
  have hlt : f.bits.toNat < 2 * signUnit := f.bits.toNat_lt
  have hbits : (if f.isNegative then signUnit else 0) + f.magnitude = f.bits.toNat := by
    unfold isNegative magnitude
    split_ifs with hneg
    · have hge := of_decide_eq_true hneg
      rw [Nat.mod_eq_sub_mod hge, Nat.mod_eq_of_lt (by omega)]
      omega
    · have hge := of_decide_eq_false (Bool.eq_false_iff.mpr hneg)
      rw [Nat.mod_eq_of_lt (by omega), Nat.zero_add]
  rw [ofMagnitude, hbits, UInt64.ofNat_toNat]

theorem truncate_eq (hf : f.isNaN = false) :
    f.truncate = ofMagnitude f.isNegative f.cutMagnitude := by
  unfold truncate cutMagnitude
  rw [hf, if_neg Bool.false_ne_true]
  split_ifs
  · exact (ofMagnitude_magnitude f).symm
  · rfl
  · rw [Nat.one_shiftLeft]

theorem exponent_of_normal (hnormal : 1 ≤ f.biasedExponent) :
    f.exponent = f.biasedExponent - 1075 := by
  rw [exponent, max_eq_left hnormal]

theorem size_lt_one (hsmall : f.biasedExponent < 1023) : f.size < 1 := by
  have hbelow : f.magnitude < 1023 * hiddenUnit + 0 := by
    rw [Nat.add_zero, ← Nat.div_lt_iff_lt_mul hiddenUnit_pos]
    exact hsmall
  calc f.size = sizeAt f.magnitude := f.size_eq_sizeAt
    _ < sizeAt (1023 * hiddenUnit + 0) := strictMono_sizeAt hbelow
    _ = 1 := by
        rw [sizeAt_normal (by decide) hiddenUnit_pos, hiddenUnit_eq]
        norm_num

/-- Between these exponents the point stands within the significand, `k` bits above its end. The
bits that are cut off are among those of the fraction. -/
theorem sizeAt_cutMagnitude_of_inside {k : Nat} (hk : f.biasedExponent + k = 1075) (hpos : 0 < k)
    (hle : k ≤ 52) : sizeAt (f.magnitude / 2 ^ k * 2 ^ k) = ⌊f.size⌋₊ := by
  have hunit : hiddenUnit = 2 ^ k * 2 ^ (52 - k) := by
    rw [hiddenUnit_eq, ← pow_add, Nat.add_sub_cancel' hle]
  have hkpos : 0 < 2 ^ k := Nat.two_pow_pos k
  have hfraction : f.fraction < hiddenUnit := Nat.mod_lt _ hiddenUnit_pos
  have hsplit : f.magnitude = f.fraction + 2 ^ k * (2 ^ (52 - k) * f.biasedExponent) := by
    rw [← Nat.mul_assoc, ← hunit]
    exact (Nat.mod_add_div _ _).symm
  have hcut : f.magnitude / 2 ^ k * 2 ^ k
      = f.biasedExponent * hiddenUnit + f.fraction / 2 ^ k * 2 ^ k := by
    rw [hsplit, Nat.add_mul_div_left _ _ hkpos, hunit]
    ring
  have hsignificand : f.significand / 2 ^ k = f.fraction / 2 ^ k + 2 ^ (52 - k) := by
    rw [significand, if_neg (by omega), hunit, Nat.add_mul_div_left _ _ hkpos]
  have hexponent : f.exponent = -k := by
    rw [exponent_of_normal (by omega)]
    omega
  have hfloor : ⌊f.size⌋₊ = f.fraction / 2 ^ k + 2 ^ (52 - k) := by
    rw [size_of_neg (by omega), Nat.floor_div_eq_div, hexponent, neg_neg, Int.toNat_natCast,
      hsignificand]
  rw [hcut, sizeAt_normal (by omega) ((Nat.div_mul_le_self _ _).trans_lt hfraction), hfloor, hunit]
  have hscale : (2 : ℚ) ^ ((f.biasedExponent : Int) - 1075) = (2 ^ k)⁻¹ := by
    rw [← zpow_natCast, ← zpow_neg]
    congr 1
    omega
  rw [hscale]
  push_cast
  field_simp

theorem sizeAt_cutMagnitude (f : Binary64) : sizeAt f.cutMagnitude = ⌊f.size⌋₊ := by
  unfold cutMagnitude
  split_ifs with hlarge hsmall
  · have hexponent := exponent_of_normal (f := f) (by omega)
    rw [← size_eq_sizeAt, size_of_nonneg (by omega), Nat.floor_natCast]
  · rw [sizeAt_zero, Nat.floor_eq_zero.mpr (size_lt_one hsmall), Nat.cast_zero]
  · exact sizeAt_cutMagnitude_of_inside (by omega) (by omega) (by omega)

section

variable (hf : f.isFinite = true)

include hf

theorem cutMagnitude_lt : f.cutMagnitude < infiniteMagnitude :=
  f.cutMagnitude_le.trans_lt (of_decide_eq_true hf)

theorem magnitude_truncate : f.truncate.magnitude = f.cutMagnitude := by
  rw [truncate_eq (isNaN_of_isFinite hf)]
  exact magnitude_ofMagnitude ((cutMagnitude_lt hf).trans infiniteMagnitude_lt_signUnit)

theorem isNegative_truncate : f.truncate.isNegative = f.isNegative := by
  rw [truncate_eq (isNaN_of_isFinite hf)]
  exact isNegative_ofMagnitude ((cutMagnitude_lt hf).trans infiniteMagnitude_lt_signUnit)

theorem isFinite_truncate : f.truncate.isFinite = true := by
  rw [isFinite, magnitude_truncate hf]
  exact decide_eq_true (cutMagnitude_lt hf)

theorem size_truncate : f.truncate.size = ⌊f.size⌋₊ := by
  rw [size_eq_sizeAt, magnitude_truncate hf, sizeAt_cutMagnitude]

theorem toRat_truncate : f.truncate.toRat = f.integerPart := by
  rw [toRat, isNegative_truncate hf, size_truncate hf, integerPart_eq]
  split_ifs
  · push_cast
    rfl
  · rfl

theorem integerPart_truncate : f.truncate.integerPart = f.integerPart := by
  rw [integerPart_eq, isNegative_truncate hf, size_truncate hf, Nat.floor_natCast, integerPart_eq]

theorem value?_of_isFinite : f.value? = some (ofRat f.toRat) := by
  rw [value?, isNaN_of_isFinite hf, isInfinite_of_isFinite hf, if_neg Bool.false_ne_true,
    if_neg Bool.false_ne_true]

end

/-! ## Integers against doubles -/

theorem value?_aboveInt64 : aboveInt64.value? = some (ofRat (2 ^ 63)) := by
  have hsignificand : aboveInt64.significand = 2 ^ 52 := by decide
  have hexponent : aboveInt64.exponent = 11 := by decide
  rw [value?_of_isFinite (by decide), toRat, if_neg (by decide), size, hsignificand, hexponent]
  norm_num

theorem value?_leastInt64 : leastInt64.value? = some (ofRat (-2 ^ 63)) := by
  have hsignificand : leastInt64.significand = 2 ^ 52 := by decide
  have hexponent : leastInt64.exponent = 11 := by decide
  rw [value?_of_isFinite (by decide), toRat, if_pos (by decide), size, hsignificand, hexponent]
  norm_num

section

variable (hf : f.isFinite = true) (hleast : -2 ^ 63 ≤ f.toRat) (habove : f.toRat < 2 ^ 63)

include hf hleast habove

/-- Within the range of the integers the cast of the truncated number is the integer part. -/
theorem toInt_toInt64_truncate : f.truncate.toInt64.toInt = f.integerPart := by
  obtain ⟨hlow, hhigh⟩ := f.integerPart_inward
  have hmin : -2 ^ 63 ≤ f.integerPart := by
    have hle : (-2 ^ 63 : ℚ) ≤ f.integerPart := (le_min (by norm_num) hleast).trans hlow
    exact_mod_cast hle
  have hmax : f.integerPart < 2 ^ 63 := by
    have hlt : (f.integerPart : ℚ) < 2 ^ 63 := hhigh.trans_lt (max_lt (by norm_num) habove)
    exact_mod_cast hlt
  have hfinite := isFinite_truncate hf
  have hends : Int64.minValue.toInt = -2 ^ 63 ∧ Int64.maxValue.toInt = 2 ^ 63 - 1 := by decide
  rw [toInt64, isNaN_of_isFinite hfinite, isInfinite_of_isFinite hfinite, integerPart_truncate hf,
    if_neg Bool.false_ne_true, if_neg Bool.false_ne_true, hends.1, hends.2,
    min_eq_right (by omega), max_eq_right (by omega)]
  exact Int64.toInt_ofInt_of_le hmin hmax

end

theorem compare_ofRat_of_lt {i : Int} (hlt : i < f.integerPart) :
    compare (ofRat i) (ofRat f.toRat) = .lt := by
  have hle : (i : ℚ) ≤ f.integerPart - 1 := by exact_mod_cast Int.le_sub_one_of_lt hlt
  exact compare_lt_iff_lt.mpr (ExactValue.ofRat_lt_ofRat.mpr (hle.trans_lt f.integerPart_near.1))

theorem compare_ofRat_of_gt {i : Int} (hgt : f.integerPart < i) :
    compare (ofRat i) (ofRat f.toRat) = .gt := by
  have hle : (f.integerPart : ℚ) + 1 ≤ i := by exact_mod_cast hgt
  exact compare_gt_iff_gt.mpr
    (ExactValue.ofRat_lt_ofRat.mpr (f.integerPart_near.2.trans_le hle))

theorem isFinite_of_between {x : ExactValue} (hf : f.value? = some x) (hbot : ⊥ < x)
    (htop : x < ⊤) : f.isFinite = true ∧ x = ofRat f.toRat := by
  have hnan := isNaN_of_value? hf
  rw [value?, hnan, if_neg Bool.false_ne_true] at hf
  split_ifs at hf with hinf hneg
  · cases hf
    exact absurd hbot (lt_irrefl _)
  · cases hf
    exact absurd htop (lt_irrefl _)
  · have hne := of_decide_eq_false (Bool.eq_false_iff.mpr hinf)
    have hle := of_decide_eq_false hnan
    exact ⟨decide_eq_true (by omega), (Option.some.inj hf).symm⟩

/-- An integer is compared with a double by the exact values. Beyond the range of the integers the
double decides; within it, the integer parts do unless they are equal, and then the double is
compared with its own integer part. -/
theorem compareInt?_of_value? (i : Int64) {x : ExactValue} (hf : f.value? = some x) :
    compareInt? i f = some (compare (ofRat i.toInt) x) := by
  have hi : (-2 ^ 63 : ℚ) ≤ i.toInt ∧ (i.toInt : ℚ) < 2 ^ 63 :=
    ⟨by exact_mod_cast i.le_toInt, by exact_mod_cast i.toInt_lt⟩
  rw [compareInt?, isNaN_of_value? hf, if_neg Bool.false_ne_true]
  split_ifs with habove hleast
  · rw [le_iff value?_aboveInt64 hf] at habove
    rw [compare_lt_iff_lt.mpr ((ExactValue.ofRat_lt_ofRat.mpr hi.2).trans_le habove)]
  · rw [lt_iff hf value?_leastInt64] at hleast
    rw [compare_gt_iff_gt.mpr (hleast.trans_le (ExactValue.ofRat_le_ofRat.mpr hi.1))]
  · rw [le_iff value?_aboveInt64 hf, not_le] at habove
    rw [lt_iff hf value?_leastInt64, not_lt] at hleast
    obtain ⟨hfinite, rfl⟩ := isFinite_of_between hf
      (ExactValue.bot_lt_ofRat.trans_le hleast) (habove.trans ExactValue.ofRat_lt_top)
    rw [ExactValue.ofRat_lt_ofRat] at habove
    rw [ExactValue.ofRat_le_ofRat] at hleast
    have hwhole : f.truncate.value? = some (ofRat f.integerPart) := by
      rw [value?_of_isFinite (isFinite_truncate hfinite), toRat_truncate hfinite]
    simp only [toInt_toInt64_truncate hfinite hleast habove, lt_iff hwhole hf, lt_iff hf hwhole]
    rcases lt_trichotomy i.toInt f.integerPart with hlt | heq | hgt
    · rw [compare_lt_iff_lt.mpr hlt, compare_ofRat_of_lt hlt]
    · rw [compare_eq_iff_eq.mpr heq, heq]
      rcases lt_trichotomy (ofRat f.integerPart) (ofRat f.toRat) with hbelow | hsame | hover
      · rw [if_pos hbelow, compare_lt_iff_lt.mpr hbelow]
      · rw [if_neg hsame.not_lt, if_neg hsame.not_gt, compare_eq_iff_eq.mpr hsame]
      · rw [if_neg hover.not_gt, if_pos hover, compare_gt_iff_gt.mpr hover]
    · rw [compare_gt_iff_gt.mpr hgt, compare_ofRat_of_gt hgt]

end Binary64

end LuaBytecode
