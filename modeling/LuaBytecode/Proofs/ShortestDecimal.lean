import Mathlib
import LuaBytecode.Decimal.Shortest
import LuaBytecode.Proofs.Products

/-! # How large the shortest decimal is

The decimal that a double is written with lies between the midpoints to the neighbours of
the double. All that is needed of it here is that it is not zero and not above the upper
midpoint.
-/

namespace LuaBytecode.Decimal

/-- The exact size of a decimal. -/
def size (d : Decimal) : ℚ := d.coefficient * 10 ^ d.scale

/-! ## Spans -/

namespace Span

variable {s : Span} {n : Nat}

theorem bounds_of_contains (hn : s.contains n = true) :
    s.low ≤ n * s.denominator ∧ n * s.denominator ≤ s.high := by
  simp only [contains] at hn
  split_ifs at hn with hclosed
  · simpa using hn
  · rw [Bool.and_eq_true, decide_eq_true_iff, decide_eq_true_iff] at hn
    exact ⟨hn.1.le, hn.2.le⟩

theorem contains_of_nearest? {tie : Tie} (hn : s.nearest? tie = some n) : s.contains n = true := by
  simp only [nearest?] at hn
  split at hn
  · cases hn
  · next hbelow _ => exact Option.some.inj hn ▸ hbelow
  · next _ habove => exact Option.some.inj hn ▸ habove
  · next hbelow habove =>
      have hcases : n = s.value / s.denominator ∨ n = s.value / s.denominator + 1 := by
        split at hn
        · exact .inl (Option.some.inj hn).symm
        · split at hn
          · exact .inr (Option.some.inj hn).symm
          · split at hn
            · exact .inr (Option.some.inj hn).symm
            · rw [Option.some.injEq] at hn
              split at hn
              · exact .inl hn.symm
              · exact .inr hn.symm
      rcases hcases with rfl | rfl
      · exact hbelow
      · exact habove

theorem zpow_mul_pow_neg (scale : Int) :
    (10 : ℚ) ^ scale * 10 ^ (-scale).toNat = 10 ^ scale.toNat := by
  rw [← zpow_natCast, ← zpow_natCast, ← zpow_add₀ (by norm_num)]
  congr 1
  omega

/-- On any grid the numbers of a span are at most its upper end. -/
theorem mul_le_high {scale : Int} (hn : (s.rescale scale).contains n = true) :
    (n * 10 ^ scale * s.denominator : ℚ) ≤ s.high := by
  have hle := (bounds_of_contains hn).2
  simp only [rescale, tenPow] at hle
  have hpos : (0 : ℚ) < 10 ^ (-scale).toNat := by positivity
  refine le_of_mul_le_mul_right ?_ hpos
  calc (n * 10 ^ scale * s.denominator : ℚ) * 10 ^ (-scale).toNat
      = n * (s.denominator * (10 ^ scale * 10 ^ (-scale).toNat)) := by ring
    _ = n * (s.denominator * 10 ^ scale.toNat) := by rw [zpow_mul_pow_neg]
    _ ≤ s.high * 10 ^ (-scale).toNat := by exact_mod_cast hle

theorem ne_zero_of_contains {scale : Int} (hlow : 0 < s.low)
    (hn : (s.rescale scale).contains n = true) : n ≠ 0 := by
  rintro rfl
  have hle := (bounds_of_contains hn).1
  simp only [rescale, tenPow, Nat.zero_mul, Nat.le_zero, Nat.mul_eq_zero] at hle
  have hpow : Nat.pow 10 (-scale).toNat ≠ 0 := (Nat.pow_pos (by decide)).ne'
  exact hle.elim hlow.ne' hpow

end Span

/-! ## The span of a double -/

section

variable {f : Binary64}

theorem magnitude_eq (f : Binary64) :
    f.magnitude = f.biasedExponent * Binary64.hiddenUnit + f.fraction :=
  (Nat.div_add_mod' f.magnitude Binary64.hiddenUnit).symm

theorem significand_pos (hf : f.magnitude ≠ 0) : 0 < f.significand := by
  have hsplit := magnitude_eq f
  rw [Binary64.significand]
  split_ifs with hzero
  · rw [hzero] at hsplit
    omega
  · have : 0 < Binary64.hiddenUnit := by decide
    omega

theorem low_pos (hf : f.magnitude ≠ 0) : 0 < (Span.ofBinary64 f).low := by
  have hpos := significand_pos hf
  simp only [Span.ofBinary64, Nat.shiftLeft_eq]
  refine Nat.mul_pos ?_ (Nat.two_pow_pos _)
  split_ifs <;> omega

/-- All but the three largest doubles are safe from overflow. -/
theorem high_le (hf : f.magnitude + 3 < Binary64.infiniteMagnitude) :
    2 * (Span.ofBinary64 f).high ≤ Json.Numeral.safeBound := by
  have hsplit := magnitude_eq f
  have hfraction : f.fraction < Binary64.hiddenUnit := Nat.mod_lt _ (by decide)
  have hsignificand : f.significand ≤ f.fraction + Binary64.hiddenUnit := by
    rw [Binary64.significand]
    split_ifs <;> omega
  have hhigh : 2 * (Span.ofBinary64 f).high = (8 * f.significand + 4) * 2 ^ (f.exponent - 2).toNat := by
    simp only [Span.ofBinary64, Nat.shiftLeft_eq]
    ring
  rw [hhigh, Json.Numeral.safeBound]
  obtain ⟨-, -, hfour, height, -⟩ := Json.Numeral.lastPlace_bounds
  by_cases hlast : f.biasedExponent = 2046
  · have hexponent : (f.exponent - 2).toNat = 969 := by
      rw [Binary64.exponent, hlast]
      rfl
    rw [hexponent, hfour, ← Nat.mul_assoc]
    refine Nat.mul_le_mul_right _ ?_
    rw [hlast] at hsplit
    rw [Binary64.infiniteMagnitude] at hf
    omega
  · have hexponent : (f.exponent - 2).toNat ≤ 968 := by
      have hless : f.biasedExponent < 2047 := by
        refine Nat.lt_of_mul_lt_mul_right (a := Binary64.hiddenUnit) ?_
        rw [Binary64.infiniteMagnitude] at hf
        omega
      rw [Binary64.exponent]
      omega
    have hpow {k : Nat} (hk : (f.exponent - 2).toNat ≤ k) : 2 ^ (f.exponent - 2).toNat ≤ 2 ^ k :=
      Nat.pow_le_pow_right (by decide) hk
    have hle := hpow hexponent
    generalize 2 ^ 968 = unit at hle height
    calc (8 * f.significand + 4) * 2 ^ (f.exponent - 2).toNat
        ≤ (8 * f.significand + 4) * unit := Nat.mul_le_mul_left _ hle
      _ ≤ (4 * Binary64.hiddenUnit - 7) * 8 * unit := by
          refine Nat.mul_le_mul_right _ ?_
          have : 60 < Binary64.hiddenUnit := by decide
          omega
      _ = (4 * Binary64.hiddenUnit - 7) * Json.Numeral.lastPlace := by
          rw [height, Nat.mul_assoc]

end

/-! ## Trailing zeros -/

theorem trim_succ (fuel : Nat) (d : Decimal) :
    trim (fuel + 1) d
      = if d.coefficient % 10 = 0 then trim fuel ⟨d.coefficient / 10, d.scale + 1⟩ else d := rfl

theorem size_trim (fuel : Nat) (d : Decimal) : (trim fuel d).size = d.size := by
  induction fuel generalizing d with
  | zero => rfl
  | succ fuel ih =>
      rw [trim_succ]
      split_ifs with hzero
      · rw [ih]
        have hten : d.coefficient = d.coefficient / 10 * 10 := by omega
        simp only [size]
        rw [zpow_add_one₀ (by norm_num)]
        nth_rewrite 2 [hten]
        push_cast
        ring
      · rfl

theorem coefficient_trim_ne_zero (fuel : Nat) {d : Decimal} (hd : d.coefficient ≠ 0) :
    (trim fuel d).coefficient ≠ 0 := by
  induction fuel generalizing d with
  | zero => exact hd
  | succ fuel ih =>
      rw [trim_succ]
      split_ifs with hzero
      · exact ih (by simp only; omega)
      · exact hd

/-! ## The shortest decimal -/

theorem shortest_cases (tie : Tie) (f : Binary64) :
    shortest tie f = ⟨0, 17⟩ ∨
      ∃ n scale, ((Span.ofBinary64 f).rescale scale).contains n = true ∧
        shortest tie f = trim 17 ⟨n, scale⟩ := by
  simp only [shortest]
  generalize hfound : List.findSome? _ _ = found
  cases found with
  | none => exact .inl rfl
  | some d =>
      obtain ⟨digits, -, hattempt⟩ := List.exists_of_findSome?_eq_some hfound
      obtain ⟨n, hn, rfl⟩ := Option.map_eq_some_iff.mp hattempt
      exact .inr ⟨n, _, Span.contains_of_nearest? hn, rfl⟩

theorem coefficient_shortest (tie : Tie) {f : Binary64} (hf : f.magnitude ≠ 0) :
    (shortest tie f).coefficient ≠ 0 ∨ shortest tie f = ⟨0, 17⟩ := by
  rcases shortest_cases tie f with hnone | ⟨n, scale, hn, heq⟩
  · exact .inr hnone
  · rw [heq]
    exact .inl (coefficient_trim_ne_zero 17 (Span.ne_zero_of_contains (low_pos hf) hn))

theorem size_shortest_le (tie : Tie) {f : Binary64}
    (hf : f.magnitude + 3 < Binary64.infiniteMagnitude) :
    2 * (shortest tie f).size ≤ Json.Numeral.safeBound := by
  rcases shortest_cases tie f with hnone | ⟨n, scale, hn, heq⟩
  · rw [hnone]
    simp [size]
  · have hhigh : (2 * (Span.ofBinary64 f).high : ℚ) ≤ Json.Numeral.safeBound := by
      exact_mod_cast high_le hf
    have hdenominator : (1 : ℚ) ≤ (Span.ofBinary64 f).denominator := by
      have : 1 ≤ (Span.ofBinary64 f).denominator := by
        simp only [Span.ofBinary64, Nat.one_shiftLeft]
        exact Nat.two_pow_pos _
      exact_mod_cast this
    have hle := Span.mul_le_high hn
    have hsize : (n * 10 ^ scale : ℚ) ≤ n * 10 ^ scale * (Span.ofBinary64 f).denominator :=
      le_mul_of_one_le_right (by positivity) hdenominator
    rw [heq, size_trim]
    simp only [size]
    linarith

end LuaBytecode.Decimal
