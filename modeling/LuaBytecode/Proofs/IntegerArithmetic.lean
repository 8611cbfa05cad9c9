import Mathlib
import LuaBytecode.Proofs.Faults

/-! # Integers modulo `2 ^ 64`

A word stands for an integer from `-2 ^ 63` up to `2 ^ 63`, and of the integers that are
congruent modulo `2 ^ 64` exactly one is stood for. Sums, differences, products and left shifts
of words are the words for the exact results in this sense.

A quotient is rounded toward zero, and the remainder that goes with it is smaller than the
divisor and has the sign of the dividend. There is one quotient that no word stands for, that of
the least integer by -1. It wraps around to the dividend, and the remainder is zero, so that
the two still make up the dividend modulo `2 ^ 64`.
-/

namespace LuaBytecode

/-! ## Words and residues -/

/-- A word is determined by its residue. -/
theorem eq_of_modEq {c d : Int64} {n : Int} (hc : c.toInt ≡ n [ZMOD 2 ^ 64])
    (hd : d.toInt ≡ n [ZMOD 2 ^ 64]) : d = c := by
  have hcd : d.toInt % 2 ^ 64 = c.toInt % 2 ^ 64 := hd.trans hc.symm
  have hclow := c.le_toInt
  have hchigh := c.toInt_lt
  have hdlow := d.le_toInt
  have hdhigh := d.toInt_lt
  apply Int64.toInt_inj.mp
  omega

theorem modEq_of_toInt_eq_bmod {c : Int64} {n : Int} (h : c.toInt = n.bmod (2 ^ 64)) :
    c.toInt ≡ n [ZMOD 2 ^ 64] := by
  rw [h]
  exact Int.bmod_emod

theorem toInt_modEq_toNat (a : Int64) : a.toInt ≡ a.toBitVec.toNat [ZMOD 2 ^ 64] := by
  apply modEq_of_toInt_eq_bmod
  rw [← Int64.toInt_toBitVec, BitVec.toInt_eq_toNat_bmod]

/-! ## Shifts -/

theorem smod_eq_self {x : BitVec 64} (h : x.toNat < 64) : x.smod 64 = x := by
  have hx : x.msb = false := BitVec.msb_eq_false_iff_two_mul_lt.mpr (by omega)
  have h64 : (64 : BitVec 64).msb = false := rfl
  rw [BitVec.smod_eq, hx, h64]
  apply BitVec.eq_of_toNat_eq
  exact Nat.mod_eq_of_lt h

/-- The distance of a shift is the residue of the operand modulo 64, also where the operand is
negative. -/
theorem toNat_shiftDistance (b : Int64) :
    ((b &&& 63).toBitVec.smod 64).toNat = (b.toInt % 64).toNat := by
  have hlow : (b &&& 63).toBitVec.toNat = b.toBitVec.toNat % 64 := by
    rw [Int64.toBitVec_and, BitVec.toNat_and]
    exact Nat.and_two_pow_sub_one_eq_mod _ 6
  have hword : b.toInt % 64 = b.toBitVec.toNat % 64 := by
    rw [← Int64.toInt_toBitVec, BitVec.toInt_eq_toNat_bmod, Int.bmod_def]
    split <;> omega
  rw [smod_eq_self (by omega), hlow, hword]
  rfl

theorem toInt_shiftLeft_modEq (a b : Int64) :
    (a <<< (b &&& 63)).toInt ≡ a.toInt * 2 ^ (b.toInt % 64).toNat [ZMOD 2 ^ 64] := by
  have hshift : (a <<< (b &&& 63)).toInt
      = ((a.toBitVec.toNat : Int) * 2 ^ (b.toInt % 64).toNat).bmod (2 ^ 64) := by
    rw [← Int64.toInt_toBitVec, Int64.toBitVec_shiftLeft, BitVec.shiftLeft_eq',
      toNat_shiftDistance, BitVec.toInt_shiftLeft, Nat.shiftLeft_eq]
    push_cast
    rfl
  exact (modEq_of_toInt_eq_bmod hshift).trans ((toInt_modEq_toNat a).symm.mul_right _)

theorem toInt_shiftRight_eq (a b : Int64) :
    (a >>> (b &&& 63)).toInt = ⌊(a.toInt : ℚ) / 2 ^ (b.toInt % 64).toNat⌋ := by
  rw [← Int64.toInt_toBitVec, Int64.toBitVec_shiftRight, BitVec.sshiftRight_eq',
    toNat_shiftDistance, BitVec.toInt_sshiftRight, Int64.toInt_toBitVec,
    Int.shiftRight_eq_div_pow]
  exact_mod_cast (Rat.floor_intCast_div_natCast _ _).symm

/-! ## Quotients -/

/-- A number rounded toward zero. -/
def towardZero (x : ℚ) : ℤ := if 0 ≤ x then ⌊x⌋ else ⌈x⌉

theorem towardZero_neg (x : ℚ) : towardZero (-x) = -towardZero x := by
  unfold towardZero
  rcases lt_trichotomy x 0 with hneg | rfl | hpos
  · rw [if_pos (by linarith), if_neg (by linarith), Int.floor_neg]
  · simp
  · rw [if_neg (by linarith), if_pos hpos.le, Int.ceil_neg]

theorem towardZero_natCast_div (m n : ℕ) : towardZero ((m : ℚ) / n) = (m : ℤ).tdiv n := by
  rw [towardZero, if_pos (by positivity)]
  exact Rat.floor_intCast_div_natCast m n

theorem towardZero_div (a b : ℤ) : towardZero ((a : ℚ) / b) = a.tdiv b := by
  -- the signs of the operands come off both sides alike
  obtain ⟨m, rfl | rfl⟩ := a.eq_nat_or_neg <;> obtain ⟨n, rfl | rfl⟩ := b.eq_nat_or_neg
  · exact towardZero_natCast_div m n
  · rw [Int.cast_neg, div_neg, towardZero_neg, Int.tdiv_neg]
    exact congrArg Neg.neg (towardZero_natCast_div m n)
  · rw [Int.cast_neg, neg_div, towardZero_neg, Int.neg_tdiv]
    exact congrArg Neg.neg (towardZero_natCast_div m n)
  · rw [Int.cast_neg, Int.cast_neg, neg_div_neg_eq, Int.neg_tdiv_neg]
    exact towardZero_natCast_div m n

/-- `q` and `r` are quotient and remainder of `a` by `b`, as far as words can stand for them. -/
structure IsDivision (a b q r : Int64) : Prop where
  dividend : a.toInt ≡ b.toInt * q.toInt + r.toInt [ZMOD 2 ^ 64]
  remainder_lt : |r.toInt| < |b.toInt|
  sign : r = 0 ∨ r.toInt.sign = a.toInt.sign
  quotient : ¬ (a = Int64.minValue ∧ b = -1) →
    q.toInt = towardZero ((a.toInt : ℚ) / b.toInt)
  /-- The quotient of the least integer by -1 wraps around. -/
  wrapped : a = Int64.minValue ∧ b = -1 → q = Int64.minValue

theorem isDivision_div_mod (a : Int64) {b : Int64} (hb : b ≠ 0) :
    IsDivision a b (a / b) (a % b) where
  dividend := by
    have hquotient : (a / b).toInt ≡ a.toInt.tdiv b.toInt [ZMOD 2 ^ 64] :=
      modEq_of_toInt_eq_bmod (Int64.toInt_div a b)
    have hsum : b.toInt * (a / b).toInt + (a % b).toInt
        ≡ b.toInt * a.toInt.tdiv b.toInt + a.toInt.tmod b.toInt [ZMOD 2 ^ 64] := by
      rw [Int64.toInt_mod]
      exact (hquotient.mul_left _).add_right _
    rw [Int.mul_tdiv_add_tmod] at hsum
    exact hsum.symm
  remainder_lt := by
    have hb' : b.toInt ≠ 0 := fun h => hb (Int64.toInt_inj.mp h)
    rw [Int64.toInt_mod, ← Int.natCast_natAbs, ← Int.natCast_natAbs, Int.natAbs_tmod]
    exact_mod_cast Nat.mod_lt _ (Int.natAbs_pos.mpr hb')
  sign := by
    have hsign : (a % b).toInt.sign = if b.toInt ∣ a.toInt then 0 else a.toInt.sign := by
      rw [Int64.toInt_mod, Int.sign_tmod]
    split_ifs at hsign with hdvd
    · exact .inl (Int64.toInt_inj.mp (Int.sign_eq_zero_iff_zero.mp hsign))
    · exact .inr hsign
  quotient := by
    intro hregular
    rw [towardZero_div]
    rcases not_and_or.mp hregular with ha | hb
    · exact Int64.toInt_div_of_ne_left a b ha
    · exact Int64.toInt_div_of_ne_right a b hb
  wrapped := by
    rintro ⟨rfl, rfl⟩
    decide

/-! ## Operations on integers -/

namespace ArithOp

/-- On two integers the operation gives the one word that is congruent to `n` modulo
`2 ^ 64`. -/
def GivesResidue (op : ArithOp) (a b : Int64) (n : Int) : Prop :=
  ∃ c : Int64, op.apply (.int a) (.int b) = .ok (.int c) ∧
    ∀ d : Int64, d.toInt ≡ n [ZMOD 2 ^ 64] ↔ d = c

theorem givesResidue_of_modEq {op : ArithOp} {a b c : Int64} {n : Int}
    (hop : op.apply (.int a) (.int b) = .ok (.int c)) (hc : c.toInt ≡ n [ZMOD 2 ^ 64]) :
    op.GivesResidue a b n := by
  refine ⟨c, hop, fun d => ⟨eq_of_modEq hc, ?_⟩⟩
  rintro rfl
  exact hc

theorem apply_division {op : ArithOp} (hop : op ∈ divisions) (a : Int64) {b : Int64}
    (hb : b ≠ 0) :
    op.apply (.int a) (.int b) = .ok (.int (if op = .mod then a % b else a / b)) := by
  simp only [divisions, List.mem_cons, List.not_mem_nil, or_false] at hop
  rcases hop with rfl | rfl | rfl <;> exact if_neg hb

theorem apply_int_eq_error_iff {op : ArithOp} {a b : Int64} {fault : Fault} :
    op.apply (.int a) (.int b) = .error fault ↔
      fault = .divideByZero ∧ op ∈ divisions ∧ b = 0 := by
  constructor
  · exact onInts_error
  · rintro ⟨rfl, hop, rfl⟩
    simp only [divisions, List.mem_cons, List.not_mem_nil, or_false] at hop
    rcases hop with rfl | rfl | rfl <;> rfl

/-- Only a power leaves the integers. -/
theorem isInt_of_apply_int {op : ArithOp} {a b : Int64} {v : Value}
    (h : op.apply (.int a) (.int b) = .ok v) : (∃ c, v = .int c) ↔ op ≠ .pow := by
  cases op with
  | pow =>
      cases h
      exact iff_of_false nofun (not_not.mpr rfl)
  | div | idiv | mod =>
      have hb : b ≠ 0 := by
        rintro rfl
        cases h
      rw [apply_division (by decide) a hb] at h
      cases h
      exact iff_of_true ⟨_, rfl⟩ (by decide)
  | _ =>
      cases h
      exact iff_of_true ⟨_, rfl⟩ (by decide)

/-- **Integer arithmetic is exact modulo `2 ^ 64`.** Sums, differences, products and left shifts
of two integers are the words congruent to the exact results. A right shift is the quotient by
the power of two, rounded down, and the distance of a shift is taken modulo 64. Both divisions
give the quotient rounded toward zero, and the remainder goes with it; the quotient that no word
can hold wraps around. The only fault is that of a divisor of zero, and all but powers are
integers. -/
theorem apply_int_exact (a b : Int64) :
    GivesResidue .add a b (a.toInt + b.toInt) ∧
    GivesResidue .sub a b (a.toInt - b.toInt) ∧
    GivesResidue .mul a b (a.toInt * b.toInt) ∧
    GivesResidue .shl a b (a.toInt * 2 ^ (b.toInt % 64).toNat) ∧
    (∃ c : Int64, apply .shr (.int a) (.int b) = .ok (.int c) ∧
      c.toInt = ⌊(a.toInt : ℚ) / 2 ^ (b.toInt % 64).toNat⌋) ∧
    (b ≠ 0 → ∃ q r, apply .div (.int a) (.int b) = .ok (.int q) ∧
      apply .idiv (.int a) (.int b) = .ok (.int q) ∧
      apply .mod (.int a) (.int b) = .ok (.int r) ∧ IsDivision a b q r) ∧
    (∀ op fault, apply op (.int a) (.int b) = .error fault ↔
      fault = .divideByZero ∧ op ∈ [.div, .idiv, .mod] ∧ b = 0) ∧
    ∀ op v, apply op (.int a) (.int b) = .ok v → ((∃ c, v = .int c) ↔ op ≠ .pow) := by
  refine ⟨?_, ?_, ?_, ?_, ?_, ?_, fun _ _ => apply_int_eq_error_iff, fun _ _ => isInt_of_apply_int⟩
  · exact givesResidue_of_modEq rfl (modEq_of_toInt_eq_bmod (Int64.toInt_add a b))
  · exact givesResidue_of_modEq rfl (modEq_of_toInt_eq_bmod (Int64.toInt_sub a b))
  · exact givesResidue_of_modEq rfl (modEq_of_toInt_eq_bmod (Int64.toInt_mul a b))
  · exact givesResidue_of_modEq rfl (toInt_shiftLeft_modEq a b)
  · exact ⟨_, rfl, toInt_shiftRight_eq a b⟩
  · intro hb
    exact ⟨a / b, a % b, apply_division (by decide) a hb, apply_division (by decide) a hb,
      apply_division (by decide) a hb, isDivision_div_mod a hb⟩

/-- The least integer by -1, a negative dividend, and a shift by a negative distance. -/
theorem apply_int_exact_extremes :
    (∃ q r, apply .div (.int Int64.minValue) (.int (-1)) = .ok (.int q) ∧
      apply .mod (.int Int64.minValue) (.int (-1)) = .ok (.int r) ∧
      q = Int64.minValue ∧ |r.toInt| < 1) ∧
    (∃ q r, apply .idiv (.int (-7)) (.int 2) = .ok (.int q) ∧
      apply .mod (.int (-7)) (.int 2) = .ok (.int r) ∧
      q.toInt = towardZero (-7 / 2) ∧ (r = 0 ∨ r.toInt.sign = -1)) ∧
    GivesResidue .shl 5 (-1) (5 * 2 ^ 63) ∧
    apply .mod (.int 5) (.int 0) = .error .divideByZero := by
  obtain ⟨-, -, -, -, -, hleast, -⟩ := apply_int_exact Int64.minValue (-1)
  obtain ⟨-, -, -, -, -, hnegative, -⟩ := apply_int_exact (-7) 2
  obtain ⟨-, -, -, hshift, -⟩ := apply_int_exact 5 (-1)
  obtain ⟨-, -, -, -, -, -, hzero, -⟩ := apply_int_exact 5 0
  obtain ⟨q, r, hq, -, hr, hdivision⟩ := hleast (by decide)
  obtain ⟨q', r', -, hq', hr', hdivision'⟩ := hnegative (by decide)
  refine ⟨⟨q, r, hq, hr, hdivision.wrapped ⟨rfl, rfl⟩, hdivision.remainder_lt⟩, ⟨q', r', hq', hr', ?_,
    hdivision'.sign⟩, hshift, (hzero _ _).mpr ⟨rfl, by decide, rfl⟩⟩
  have hquotient := hdivision'.quotient (by decide)
  exact_mod_cast hquotient

end ArithOp

end LuaBytecode
