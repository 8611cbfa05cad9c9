import Mathlib
import LuaBytecode.Proofs.JsonRoundTrip

/-! # How deep tables and JSON values nest

The height of a table is the length of the longest chain of tables that starts at it,
each a value of the one before. Chains can run in a circle, and then the height is
infinite. The conversions count levels instead, and all they need is one step of that
count: a table is lower than `n + 1` when the tables in it are lower than `n`.
-/

namespace LuaBytecode

/-! ## Tables -/

namespace Table

variable {h : Heap} {t u : Table}

/-- The length of the longest chain of tables that follow a table, each a value of the one
before it. -/
noncomputable def height (h : Heap) (t : Table) : ℕ∞ :=
  ⨆ (us : List Table) (_ : (t :: us).IsChain (Holds h)), (us.length : ℕ∞)

theorem height_le_iff {n : ℕ} :
    height h t ≤ n ↔ ∀ us : List Table, (t :: us).IsChain (Holds h) → us.length ≤ n := by
  simp [height]

theorem height_lt_succ_iff_le {n : ℕ} : height h t < (n + 1 : ℕ) ↔ height h t ≤ n := by
  rw [Nat.cast_add_one, ENat.lt_add_one_iff (ENat.natCast_ne_top n)]

/-- A table has one level more than the tables in it. -/
theorem height_lt_succ_iff {n : ℕ} :
    height h t < (n + 1 : ℕ) ↔ ∀ u, Holds h t u → height h u < n := by
  rw [height_lt_succ_iff_le, height_le_iff]
  constructor
  · intro hchains u hu
    have hpositive : 1 ≤ n := hchains [u] (.cons_cons hu (.singleton u))
    obtain ⟨m, rfl⟩ := Nat.exists_eq_add_of_le' hpositive
    rw [height_lt_succ_iff_le, height_le_iff]
    intro us hus
    exact Nat.le_of_succ_le_succ (hchains (u :: us) (.cons_cons hu hus))
  · intro hlower us hus
    cases us with
    | nil => exact Nat.zero_le n
    | cons u us =>
        obtain ⟨hu, hchain⟩ := List.isChain_cons_cons.mp hus
        cases n with
        | zero => exact absurd (hlower u hu) not_lt_zero
        | succ m =>
            have hbelow := height_lt_succ_iff_le.mp (hlower u hu)
            exact Nat.succ_le_succ (height_le_iff.mp hbelow us hchain)

theorem height_lt_of_holds (hu : Holds h t u) (hfinite : height h t ≠ ⊤) :
    height h u < height h t := by
  obtain ⟨n, hn⟩ := ENat.ne_top_iff_exists.mp hfinite
  rw [← hn]
  refine height_lt_succ_iff.mp ?_ u hu
  rw [← hn]
  exact Nat.cast_lt.mpr n.lt_succ_self

/-- A table that contains itself, at whatever distance, has no finite height. -/
theorem height_eq_top_of_cycle (hcycle : Relation.TransGen (Holds h) t t) : height h t = ⊤ := by
  by_contra hfinite
  have hlower {u : Table} (hu : Relation.TransGen (Holds h) t u) : height h u < height h t := by
    induction hu with
    | single hu => exact height_lt_of_holds hu hfinite
    | tail _ hu ih => exact (height_lt_of_holds hu ih.ne_top).trans ih
  exact lt_irrefl _ (hlower hcycle)

end Table

/-! ## JSON values -/

namespace Json

mutual

/-- How many arrays and objects lie inside each other at most, the value itself included. -/
def depth : Json → Nat
  | .arr items => itemsDepth items + 1
  | .obj fields => fieldsDepth fields + 1
  | _ => 0

def itemsDepth : List Json → Nat
  | [] => 0
  | item :: rest => max item.depth (itemsDepth rest)

def fieldsDepth : List (String × Json) → Nat
  | [] => 0
  | (_, value) :: rest => max value.depth (fieldsDepth rest)

end

theorem itemsDepth_le_iff {n : Nat} {items : List Json} :
    itemsDepth items ≤ n ↔ ∀ item ∈ items, item.depth ≤ n := by
  induction items with
  | nil => simp [itemsDepth]
  | cons item rest ih => rw [itemsDepth, max_le_iff, ih, List.forall_mem_cons]

theorem fieldsDepth_le_iff {n : Nat} {fields : List (String × Json)} :
    fieldsDepth fields ≤ n ↔ ∀ f ∈ fields, f.2.depth ≤ n := by
  induction fields with
  | nil => simp [fieldsDepth]
  | cons f rest ih => rw [fieldsDepth, max_le_iff, ih, List.forall_mem_cons]

theorem depth_arr_le_succ_iff {n : Nat} {items : List Json} :
    (arr items).depth ≤ n + 1 ↔ ∀ item ∈ items, item.depth ≤ n := by
  rw [depth, Nat.add_le_add_iff_right, itemsDepth_le_iff]

theorem depth_obj_le_succ_iff {n : Nat} {fields : List (String × Json)} :
    (obj fields).depth ≤ n + 1 ↔ ∀ f ∈ fields, f.2.depth ≤ n := by
  rw [depth, Nat.add_le_add_iff_right, fieldsDepth_le_iff]

theorem IsContainer.depth_ne_zero {j : Json} (hj : j.IsContainer) : j.depth ≠ 0 := by
  cases j with
  | arr items => exact Nat.succ_ne_zero _
  | obj fields => exact Nat.succ_ne_zero _
  | _ => cases hj

theorem depth_eq_zero_of_scalar {j : Json} (hj : ¬ j.IsContainer) : j.depth = 0 := by
  cases j with
  | arr items => exact absurd trivial hj
  | obj fields => exact absurd trivial hj
  | _ => rfl

end Json

end LuaBytecode
