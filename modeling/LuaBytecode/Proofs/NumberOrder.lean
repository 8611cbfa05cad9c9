import LuaBytecode.Number
import LuaBytecode.Proofs.ExactValues

/-! # The order of numbers

An integer stands for itself and a float for its exact value. Numbers are compared by what they
stand for, so the order of the values carries over to any mix of integers and floats. A
comparison that first rounded the integer to a float would be right on most pairs, and yet would
hold `2 ^ 53 + 1` equal to the float `2 ^ 53`, which lies below the integer.
-/

namespace LuaBytecode

open ExactValue (ofRat)

namespace Number

def isNaN : Number → Bool
  | .int _ => false
  | .float f => f.isNaN

/-- What a number stands for; a NaN stands for nothing. -/
def value? : Number → Option ExactValue
  | .int i => some (ofRat i.toInt)
  | .float f => f.value?

variable {a b : Number} {x y : ExactValue}

theorem value?_eq_none_iff : a.value? = none ↔ a.isNaN = true := by
  cases a with
  | int i => exact iff_of_false nofun nofun
  | float f => exact Binary64.value?_eq_none_iff

theorem exists_value? (ha : a.isNaN = false) : ∃ x, a.value? = some x := by
  rw [← Option.ne_none_iff_exists', ne_eq, value?_eq_none_iff, ha]
  exact Bool.false_ne_true

theorem exists_values (hproper : ¬ (a.isNaN = true ∨ b.isNaN = true)) :
    ∃ x y, a.value? = some x ∧ b.value? = some y := by
  rw [not_or, Bool.not_eq_true, Bool.not_eq_true] at hproper
  obtain ⟨x, hx⟩ := exists_value? hproper.1
  obtain ⟨y, hy⟩ := exists_value? hproper.2
  exact ⟨x, y, hx, hy⟩

/-- One case for each mix of integers and floats. -/
theorem compare?_of_value? (ha : a.value? = some x) (hb : b.value? = some y) :
    a.compare? b = some (compare x y) := by
  cases a with
  | int i =>
      cases ha
      cases b with
      | int j =>
          cases hb
          have hmono : StrictMono fun n : Int => ofRat n := fun m n hlt =>
            ExactValue.ofRat_lt_ofRat.mpr (Int.cast_lt.mpr hlt)
          rw [compare?, ← cmp_eq_compare, ← cmp_eq_compare, hmono.cmp_map_eq]
      | float g => exact Binary64.compareInt?_of_value? i hb
  | float f =>
      cases b with
      | int j =>
          cases hb
          rw [compare?, Binary64.compareInt?_of_value? j ha, Option.map_some, ← cmp_eq_compare,
            cmp_swap, cmp_eq_compare]
      | float g => exact Binary64.compare?_of_value? ha hb

theorem compare?_of_isNaN (hnan : a.isNaN = true ∨ b.isNaN = true) : a.compare? b = none := by
  cases a with
  | int i =>
      have hb : b.isNaN = true := hnan.resolve_left Bool.false_ne_true
      cases b with
      | int j => cases hb
      | float g => exact if_pos hb
  | float f =>
      cases b with
      | int j =>
          have hf : f.isNaN = true := hnan.resolve_right Bool.false_ne_true
          exact congrArg (Option.map Ordering.swap) (if_pos hf)
      | float g => exact Binary64.compare?_eq_none_iff.mpr hnan

theorem compare?_eq_none_iff : a.compare? b = none ↔ a.isNaN = true ∨ b.isNaN = true := by
  refine ⟨fun hnone => ?_, compare?_of_isNaN⟩
  by_contra hproper
  obtain ⟨x, y, hx, hy⟩ := exists_values hproper
  rw [compare?_of_value? hx hy] at hnone
  cases hnone

theorem compare?_eq_some_eq_iff :
    a.compare? b = some .eq ↔ ∃ x, a.value? = some x ∧ b.value? = some x := by
  constructor
  · intro heq
    have hproper : ¬ (a.isNaN = true ∨ b.isNaN = true) := by
      rw [← compare?_eq_none_iff, heq]
      exact Option.some_ne_none _
    obtain ⟨x, y, hx, hy⟩ := exists_values hproper
    rw [compare?_of_value? hx hy, Option.some_inj, compare_eq_iff_eq] at heq
    exact ⟨x, hx, heq ▸ hy⟩
  · rintro ⟨x, ha, hb⟩
    rw [compare?_of_value? ha hb, Option.some_inj, compare_eq_iff_eq]

theorem compare?_toValue (a b : Number) : a.toValue.compare? b.toValue = a.compare? b := by
  cases a <;> cases b <;> rfl

theorem lessThan_toValue_iff (ha : a.value? = some x) (hb : b.value? = some y) :
    a.toValue.lessThan b.toValue = true ↔ x < y := by
  rw [Value.lessThan, compare?_toValue, compare?_of_value? ha hb, beq_iff_eq, Option.some_inj,
    compare_lt_iff_lt]

theorem lessEqual_toValue_iff (ha : a.value? = some x) (hb : b.value? = some y) :
    a.toValue.lessEqual b.toValue = true ↔ x ≤ y := by
  rw [Value.lessEqual, compare?_toValue, compare?_of_value? ha hb, Bool.or_eq_true, beq_iff_eq,
    beq_iff_eq, Option.some_inj, Option.some_inj, compare_lt_iff_lt, compare_eq_iff_eq,
    le_iff_lt_or_eq]

/-- Two numbers are compared unless one of them is a NaN, and the result is the order of what they
stand for. On the numbers that are not NaN, less-than is irreflexive and transitive and any number
is above the lower or below the upper of two that it tells apart, and less-or-equal is less-than
turned around and negated. -/
theorem order_exact :
    (∀ a b : Number, a.compare? b = none ↔ a.isNaN = true ∨ b.isNaN = true) ∧
    (∀ a b : Number, a.isNaN = false → b.isNaN = false →
      ∃ x y, a.value? = some x ∧ b.value? = some y ∧ a.compare? b = some (compare x y)) ∧
    (∀ a : Number, a.isNaN = false → a.toValue.lessThan a.toValue = false) ∧
    (∀ a b c : Number, a.isNaN = false → b.isNaN = false → c.isNaN = false →
      (a.toValue.lessThan b.toValue = true → b.toValue.lessThan c.toValue = true →
        a.toValue.lessThan c.toValue = true) ∧
      (a.toValue.lessThan c.toValue = true →
        a.toValue.lessThan b.toValue = true ∨ b.toValue.lessThan c.toValue = true)) ∧
    ∀ a b : Number, a.isNaN = false → b.isNaN = false →
      a.toValue.lessEqual b.toValue = !b.toValue.lessThan a.toValue := by
  refine ⟨fun a b => compare?_eq_none_iff, fun a b ha hb => ?_, fun a ha => ?_,
    fun a b c ha hb hc => ?_, fun a b ha hb => ?_⟩
  · obtain ⟨x, hx⟩ := exists_value? ha
    obtain ⟨y, hy⟩ := exists_value? hb
    exact ⟨x, y, hx, hy, compare?_of_value? hx hy⟩
  · obtain ⟨x, hx⟩ := exists_value? ha
    rw [← Bool.not_eq_true, lessThan_toValue_iff hx hx]
    exact lt_irrefl x
  · obtain ⟨x, hx⟩ := exists_value? ha
    obtain ⟨y, hy⟩ := exists_value? hb
    obtain ⟨z, hz⟩ := exists_value? hc
    rw [lessThan_toValue_iff hx hy, lessThan_toValue_iff hy hz, lessThan_toValue_iff hx hz]
    exact ⟨lt_trans, fun hlt => (lt_or_ge x y).imp_right fun hge => hge.trans_lt hlt⟩
  · obtain ⟨x, hx⟩ := exists_value? ha
    obtain ⟨y, hy⟩ := exists_value? hb
    rw [Bool.eq_iff_iff, lessEqual_toValue_iff hx hy, Bool.not_eq_true', ← Bool.not_eq_true,
      lessThan_toValue_iff hy hx, not_lt]

/-- The float `2 ^ 53`, the integer above it and the next float are told apart, as are the greatest
integer and the float `2 ^ 63` that it would be rounded to. -/
theorem order_exact_beside_floats :
    ∃ lower between upper last : Number,
      lower = .float ⟨0x4340000000000000⟩ ∧ between = .int 9007199254740993 ∧
      upper = .float ⟨0x4340000000000001⟩ ∧ last = .int Int64.maxValue ∧
      (lower.isNaN = false ∧ between.isNaN = false ∧ upper.isNaN = false ∧ last.isNaN = false) ∧
      (lower.toValue.lessThan between.toValue = true ∧
        between.toValue.lessThan upper.toValue = true ∧
        lower.toValue.lessThan upper.toValue = true) ∧
      between.toValue.lessEqual lower.toValue = false ∧
      ∃ x y, last.value? = some x ∧ Binary64.aboveInt64.value? = some y ∧
        last.compare? (.float .aboveInt64) = some (compare x y) := by
  obtain ⟨-, hcompare, -, hweak, hequal⟩ := order_exact
  refine ⟨_, _, _, _, rfl, rfl, rfl, rfl, by decide, ⟨by decide, by decide, ?_⟩, ?_, ?_⟩
  · exact (hweak _ (.int 9007199254740993) _ (by decide) (by decide) (by decide)).1
      (by decide) (by decide)
  · refine (hequal _ _ ?_ ?_).trans ?_ <;> decide
  · exact hcompare (.int Int64.maxValue) (.float .aboveInt64) (by decide) (by decide)

end Number

end LuaBytecode
