import LuaBytecode.Proofs.NumberOrder

/-! # Equality as programs see it

Programs compare numbers by what they stand for, while tables tell their keys apart by identity,
which keeps an integer and a float apart, and the two zeros as well. Equality looks at the content of
the two values: the exact value of a number, and any other value itself. As it holds just between
values of the same content, and only a NaN has none, its laws follow without another look at the
comparison. What it adds to identity is seen where the content does not determine the value.
-/

namespace LuaBytecode

open ExactValue (ofRat)

/-! ## Floats of the same value -/

namespace Binary64

variable {f g : Binary64} {x : ExactValue}

theorem ordinal_eq_of_value? (hf : f.value? = some x) (hg : g.value? = some x) :
    f.ordinal = g.ordinal := by
  have hfn := isNaN_of_value? hf
  have hgn := isNaN_of_value? hg
  rw [value?_eq_extendedAt hfn] at hf
  rw [value?_eq_extendedAt hgn, ← hf, Option.some_inj] at hg
  exact (strictMonoOn_extendedAt.injOn (ordinal_mem hgn) (ordinal_mem hfn) hg).symm

theorem eq_of_fields (hsign : f.isNegative = g.isNegative)
    (hmagnitude : f.magnitude = g.magnitude) : f = g := by
  rw [← ofMagnitude_magnitude f, hsign, hmagnitude, ofMagnitude_magnitude]

theorem eq_zero_of_magnitude (hzero : f.magnitude = 0) :
    f = if f.isNegative then negativeZero else zero := by
  have hf := ofMagnitude_magnitude f
  rw [hzero] at hf
  split_ifs with hsign
  · rw [← hf, hsign]
    rfl
  · rw [← hf, Bool.eq_false_iff.mpr hsign]
    rfl

/-- A value belongs to one pattern of bits, unless it is zero. -/
theorem eq_or_zeros_of_value? (hf : f.value? = some x) (hg : g.value? = some x) :
    f = g ∨ (f = zero ∧ g = negativeZero) ∨ (f = negativeZero ∧ g = zero) := by
  have hordinal := ordinal_eq_of_value? hf hg
  by_cases hsign : f.isNegative = g.isNegative
  · refine .inl (eq_of_fields hsign ?_)
    unfold ordinal at hordinal
    rw [hsign] at hordinal
    split_ifs at hordinal <;> omega
  · -- Places on the two sides of zero are the same only at zero.
    have hzero : f.magnitude = 0 ∧ g.magnitude = 0 := by
      unfold ordinal at hordinal
      split_ifs at hordinal with hfs hgs hgs
      · exact absurd (hfs.trans hgs.symm) hsign
      · omega
      · omega
      · exact absurd (by rw [Bool.eq_false_iff.mpr hfs, Bool.eq_false_iff.mpr hgs]) hsign
    have hfzero := eq_zero_of_magnitude hzero.1
    have hgzero := eq_zero_of_magnitude hzero.2
    rw [Bool.eq_not_of_ne (Ne.symm hsign)] at hgzero
    cases hfs : f.isNegative <;> rw [hfs] at hfzero hgzero
    · exact .inr (.inl ⟨hfzero, hgzero⟩)
    · exact .inr (.inr ⟨hfzero, hgzero⟩)

end Binary64

/-! ## Content -/

namespace Value

def isNaN : Value → Bool
  | .float f => f.isNaN
  | _ => false

/-- What equality looks at. -/
def content? : Value → Option (ExactValue ⊕ Value)
  | .int i => some (.inl (ofRat i.toInt))
  | .float f => f.value?.map .inl
  | v => some (.inr v)

variable {v w : Value}

theorem content?_eq_none_iff : v.content? = none ↔ v.isNaN = true := by
  cases v with
  | float f => exact Option.map_eq_none_iff.trans Binary64.value?_eq_none_iff
  | _ => exact iff_of_false nofun nofun

theorem content?_toValue (a : Number) : a.toValue.content? = a.value?.map .inl := by
  cases a <;> rfl

theorem content?_of_number?_eq_none (hv : v.number? = none) : v.content? = some (.inr v) := by
  cases v with
  | int i => cases hv
  | float f => cases hv
  | _ => rfl

theorem eq_of_content?_inr (hv : v.content? = some (.inr w)) : v = w := by
  cases v with
  | int i => cases hv
  | float f =>
      obtain ⟨_, -, hinl⟩ := Option.map_eq_some_iff.mp hv
      cases hinl
  | _ =>
      cases hv
      rfl

theorem eq_toValue_of_number? {a : Number} (hv : v.number? = some a) : v = a.toValue := by
  cases v with
  | int i => cases hv; rfl
  | float f => cases hv; rfl
  | _ => cases hv

theorem rawEquals_toValue (a b : Number) :
    a.toValue.rawEquals b.toValue = true ↔ a.compare? b = some .eq := by
  cases a with
  | int i =>
      cases b with
      | int j =>
          change ((Value.int i == .int j) = true) ↔ some (compare i.toInt j.toInt) = some .eq
          rw [beq_iff_eq, Option.some_inj, compare_eq_iff_eq, Value.int.injEq, Int64.toInt_inj]
      | float g => exact beq_iff_eq
  | float f =>
      cases b with
      | int j =>
          refine beq_iff_eq.trans ?_
          change Binary64.compareInt? j f = some .eq
            ↔ (Binary64.compareInt? j f).map Ordering.swap = some .eq
          cases Binary64.compareInt? j f with
          | none => exact Iff.rfl
          | some o => cases o <;> decide
      | float g => exact beq_iff_eq

theorem rawEquals_of_number?_eq_none (hother : v.number? = none ∨ w.number? = none) :
    v.rawEquals w = true ↔ v = w := by
  have hidentity : v.rawEquals w = (v == w) := by
    unfold rawEquals
    split
    · simp [number?] at hother
    · simp [number?] at hother
    · simp [number?] at hother
    · rfl
  rw [hidentity, beq_iff_eq]

/-- Values are equal when they have the same content. -/
theorem rawEquals_iff :
    v.rawEquals w = true ↔ ∃ content, v.content? = some content ∧ w.content? = some content := by
  cases hv : v.number? with
  | none =>
      rw [rawEquals_of_number?_eq_none (.inl hv), content?_of_number?_eq_none hv]
      constructor
      · rintro rfl
        exact ⟨_, rfl, content?_of_number?_eq_none hv⟩
      · rintro ⟨_, hsame, hcontent⟩
        exact (eq_of_content?_inr (hcontent.trans hsame.symm)).symm
  | some a =>
      cases hw : w.number? with
      | none =>
          rw [rawEquals_of_number?_eq_none (.inr hw), content?_of_number?_eq_none hw]
          constructor
          · rintro rfl
            exact ⟨_, content?_of_number?_eq_none hw, rfl⟩
          · rintro ⟨_, hcontent, hsame⟩
            exact eq_of_content?_inr (hcontent.trans hsame.symm)
      | some b =>
          rw [eq_toValue_of_number? hv, eq_toValue_of_number? hw, rawEquals_toValue,
            Number.compare?_eq_some_eq_iff, content?_toValue, content?_toValue]
          constructor
          · rintro ⟨x, ha, hb⟩
            exact ⟨.inl x, by rw [ha, Option.map_some], by rw [hb, Option.map_some]⟩
          · rintro ⟨content, ha, hb⟩
            obtain ⟨x, hx, rfl⟩ := Option.map_eq_some_iff.mp ha
            obtain ⟨y, hy, hxy⟩ := Option.map_eq_some_iff.mp hb
            exact ⟨x, hx, Sum.inl_injective hxy ▸ hy⟩

/-! ## Equality beside identity -/

/-- Different keys that stand for the same number: an integer and a float, or the two zeros. -/
inductive Twins : Value → Value → Prop where
  | intFloat {i : Int64} {f : Binary64} :
      f.value? = some (ofRat i.toInt) → Twins (.int i) (.float f)
  | floatInt {i : Int64} {f : Binary64} :
      f.value? = some (ofRat i.toInt) → Twins (.float f) (.int i)
  | zeros : Twins (.float .zero) (.float .negativeZero)
  | zerosReversed : Twins (.float .negativeZero) (.float .zero)

theorem Twins.ne (htwins : Twins v w) : v ≠ w := by
  cases htwins with
  | intFloat hvalue => exact nofun
  | floatInt hvalue => exact nofun
  | zeros => decide
  | zerosReversed => decide

theorem Twins.rawEquals (htwins : Twins v w) : v.rawEquals w = true := by
  cases htwins with
  | intFloat hvalue => exact rawEquals_iff.mpr ⟨_, rfl, congrArg (Option.map Sum.inl) hvalue⟩
  | floatInt hvalue => exact rawEquals_iff.mpr ⟨_, congrArg (Option.map Sum.inl) hvalue, rfl⟩
  | zeros => decide
  | zerosReversed => decide

/-- The exact value of a number determines the number up to its twins. -/
theorem eq_or_twins_of_value? {a b : Number} {x : ExactValue} (ha : a.value? = some x)
    (hb : b.value? = some x) : a.toValue = b.toValue ∨ Twins a.toValue b.toValue := by
  cases a with
  | int i =>
      cases ha
      cases b with
      | int j =>
          have hrat : (j.toInt : ℚ) = i.toInt := ExactValue.ofRat_inj.mp (Option.some.inj hb)
          have hij : j = i := Int64.toInt_inj.mp (Int.cast_inj.mp hrat)
          exact .inl (congrArg Value.int hij.symm)
      | float g => exact .inr (.intFloat hb)
  | float f =>
      cases b with
      | int j =>
          cases hb
          exact .inr (.floatInt ha)
      | float g =>
          rcases Binary64.eq_or_zeros_of_value? ha hb with rfl | ⟨rfl, rfl⟩ | ⟨rfl, rfl⟩
          · exact .inl rfl
          · exact .inr .zeros
          · exact .inr .zerosReversed

theorem twins_of_rawEquals (hequal : v.rawEquals w = true) (hne : v ≠ w) : Twins v w := by
  have hnumber : ¬ (v.number? = none ∨ w.number? = none) := fun hother =>
    hne ((rawEquals_of_number?_eq_none hother).mp hequal)
  rw [not_or] at hnumber
  obtain ⟨a, hv⟩ := Option.ne_none_iff_exists'.mp hnumber.1
  obtain ⟨b, hw⟩ := Option.ne_none_iff_exists'.mp hnumber.2
  obtain rfl := eq_toValue_of_number? hv
  obtain rfl := eq_toValue_of_number? hw
  rw [rawEquals_toValue, Number.compare?_eq_some_eq_iff] at hequal
  obtain ⟨x, ha, hb⟩ := hequal
  exact (eq_or_twins_of_value? ha hb).resolve_left hne

theorem rawEquals_self_iff : v.rawEquals v = true ↔ v.isNaN = false := by
  rw [rawEquals_iff, ← Bool.not_eq_true, ← content?_eq_none_iff]
  cases v.content? with
  | none => exact iff_of_false nofun fun hsome => hsome rfl
  | some content => exact iff_of_true ⟨content, rfl, rfl⟩ nofun

/-- Equality is symmetric and transitive, and every value but a NaN is equal to itself. So it holds
between identical keys that are no NaN, and besides only between two keys of the same number. -/
theorem rawEquals_coarsens_identity :
    (∀ v w : Value, v.rawEquals w = w.rawEquals v) ∧
    (∀ u v w : Value, u.rawEquals v = true → v.rawEquals w = true → u.rawEquals w = true) ∧
    (∀ v : Value, v.rawEquals v = true ↔ v.isNaN = false) ∧
    (∀ v w : Value, (v == w) = true → v.isNaN = false → v.rawEquals w = true) ∧
    ∀ v w : Value, (v.rawEquals w = true ∧ (v == w) = false) ↔ Twins v w := by
  refine ⟨fun v w => ?_, fun u v w huv hvw => ?_, fun v => rawEquals_self_iff,
    fun v w hidentical hv => ?_, fun v w => ?_⟩
  · rw [Bool.eq_iff_iff, rawEquals_iff, rawEquals_iff]
    exact exists_congr fun content => and_comm
  · obtain ⟨content, hu, hv⟩ := rawEquals_iff.mp huv
    obtain ⟨content', hv', hw⟩ := rawEquals_iff.mp hvw
    exact rawEquals_iff.mpr ⟨content, hu, hw.trans (hv'.symm.trans hv)⟩
  · obtain rfl := beq_iff_eq.mp hidentical
    exact rawEquals_self_iff.mpr hv
  · rw [beq_eq_false_iff_ne]
    exact ⟨fun ⟨hequal, hne⟩ => twins_of_rawEquals hequal hne,
      fun htwins => ⟨htwins.rawEquals, htwins.ne⟩⟩

/-- The two zeros are equal by way of the integer between them; a NaN is not equal to itself; and
the float `2 ^ 53` is the integer and not its successor. -/
theorem rawEquals_coarsens_identity_zeros :
    ((Value.float .zero).rawEquals (.int 0) = true ∧
      (Value.int 0).rawEquals (.float .negativeZero) = true ∧
      (Value.float .zero).rawEquals (.float .negativeZero) = true) ∧
    ((Value.str "a" == .str "a") = true ∧ (Value.str "a").isNaN = false ∧
      (Value.str "a").rawEquals (.str "a") = true) ∧
    ((Value.float .indefinite).isNaN = true ∧
      (Value.float .indefinite).rawEquals (.float .indefinite) = false) ∧
    Twins (.int 9007199254740992) (.float ⟨0x4340000000000000⟩) ∧
    ¬ Twins (.int 9007199254740993) (.float ⟨0x4340000000000000⟩) := by
  obtain ⟨-, htrans, hself, hidentical, htwins⟩ := rawEquals_coarsens_identity
  refine ⟨⟨by decide, by decide, ?_⟩, ⟨by decide, rfl, ?_⟩, ⟨by decide, ?_⟩, ?_, ?_⟩
  · exact htrans _ (.int 0) _ (by decide) (by decide)
  · exact hidentical _ _ (by decide) rfl
  · rw [← Bool.not_eq_true, hself]
    decide
  · exact (htwins _ _).mp (by decide)
  · rw [← htwins]
    decide

end Value

end LuaBytecode
