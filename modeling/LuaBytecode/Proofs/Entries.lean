import Mathlib
import LuaBytecode.Json.Bridge

/-! # Tables by their entries

No key of a table occurs twice, so its entries say what each key reads. A table that
is built from entries, or from the values of the keys 1, 2 and so on, has just those
entries in that order.
-/

namespace LuaBytecode

theorem mapM_eq_pure_map {m : Type → Type} [Monad m] [LawfulMonad m] {α β : Type} {f : α → m β}
    {g : α → β} {xs : List α} (h : ∀ x ∈ xs, f x = pure (g x)) : xs.mapM f = pure (xs.map g) := by
  induction xs with
  | nil => rfl
  | cons x rest ih =>
      rw [List.mapM_cons, h x List.mem_cons_self, ih fun y hy => h y (List.mem_cons_of_mem x hy)]
      simp

theorem exists_of_bind_eq_ok {ε α β : Type} {x : Except ε α} {f : α → Except ε β} {b : β}
    (hb : x >>= f = .ok b) : ∃ a, x = .ok a ∧ f a = .ok b := by
  cases x with
  | error fault => cases hb
  | ok a => exact ⟨a, rfl, hb⟩

theorem exists_of_map_eq_ok {ε α β : Type} {x : Except ε α} {f : α → β} {b : β}
    (hb : x.map f = .ok b) : ∃ a, x = .ok a ∧ f a = b := by
  cases x with
  | error fault => cases hb
  | ok a => exact ⟨a, rfl, Except.ok.inj hb⟩

/-- All conversions succeed, each with its result. -/
theorem forall₂_of_mapM_eq_ok {ε α β : Type} {f : α → Except ε β} {xs : List α} {ys : List β}
    (hys : xs.mapM f = .ok ys) : List.Forall₂ (fun x y => f x = .ok y) xs ys := by
  induction xs generalizing ys with
  | nil =>
      cases hys
      exact .nil
  | cons x rest ih =>
      rw [List.mapM_cons] at hys
      obtain ⟨y, hy, hys⟩ := exists_of_bind_eq_ok hys
      obtain ⟨tail, htail, hys⟩ := exists_of_bind_eq_ok hys
      cases hys
      exact .cons hy (ih htail)

/-! ## Positions -/

namespace Value

/-- The integer keys from `first` on, `count` of them. -/
def positions (first count : Nat) : List Value :=
  (List.range' first count).map fun i => .int (Int64.ofNat i)

@[simp]
theorem length_positions (first count : Nat) : (positions first count).length = count := by
  simp [positions]

theorem toInt_ofNat_of_mem_range' {first count i : Nat} (hbound : first + count ≤ 2 ^ 63)
    (hi : i ∈ List.range' first count) : (Int64.ofNat i).toInt = i := by
  obtain ⟨-, hlt⟩ := List.mem_range'_1.mp hi
  exact Int64.toInt_ofNat_of_lt (hlt.trans_le hbound)

/-- Positions are in increasing order. -/
theorem pairwise_positions {first count : Nat} (hbound : first + count ≤ 2 ^ 63)
    {R : Value → Value → Prop} (hR : ∀ i j : Int64, i < j → R (.int i) (.int j)) :
    (positions first count).Pairwise R := by
  rw [positions, List.pairwise_map]
  have hincreasing : (List.range' first count).Pairwise (· < ·) := List.pairwise_lt_range'
  refine hincreasing.imp_of_mem ?_
  intro i j hi hj hlt
  refine hR _ _ ?_
  rw [Int64.lt_iff_toInt_lt, toInt_ofNat_of_mem_range' hbound hi,
    toInt_ofNat_of_mem_range' hbound hj]
  exact Int.ofNat_lt.mpr hlt

theorem nodup_positions {first count : Nat} (hbound : first + count ≤ 2 ^ 63) :
    (positions first count).Nodup := by
  refine pairwise_positions hbound ?_
  intro i j hlt heq
  cases heq
  exact Int64.lt_irrefl hlt

theorem mem_positions_iff_isPosition {count : Nat} (hbound : 1 + count ≤ 2 ^ 63) {k : Value} :
    k ∈ positions 1 count ↔ Table.isPosition count k = true := by
  constructor
  · intro hk
    obtain ⟨i, hi, rfl⟩ := List.mem_map.mp hk
    obtain ⟨hlow, hhigh⟩ := List.mem_range'_1.mp hi
    rw [Table.isPosition, toInt_ofNat_of_mem_range' hbound hi, Bool.and_eq_true, decide_eq_true_iff,
      decide_eq_true_iff]
    omega
  · intro hk
    cases k with
    | int i =>
        rw [Table.isPosition, Bool.and_eq_true, decide_eq_true_iff, decide_eq_true_iff] at hk
        obtain ⟨hlow, hhigh⟩ := hk
        refine List.mem_map.mpr ⟨i.toInt.toNat, List.mem_range'_1.mpr (by omega), ?_⟩
        have htoInt : (Int64.ofNat i.toInt.toNat).toInt = i.toInt := by
          rw [Int64.toInt_ofNat_of_lt (by omega)]
          omega
        rw [Int64.toInt_inj.mp htoInt]
    | _ => cases hk

/-- The positions from 1 on are the integers from 1 on. -/
theorem mem_positions_iff {n : Int64} {k : Value} :
    k ∈ positions 1 n.toInt.toNat ↔ ∃ i : Int64, k = .int i ∧ 1 ≤ i ∧ i ≤ n := by
  have hmax : n.toInt < 2 ^ 63 := n.toInt_lt
  have hone : (1 : Int64).toInt = 1 := rfl
  rw [mem_positions_iff_isPosition (by omega)]
  cases k with
  | int i =>
      simp only [Table.isPosition, Bool.and_eq_true, decide_eq_true_iff, int.injEq,
        exists_eq_left', Int64.le_iff_toInt_le, hone]
      omega
  | _ => simp [Table.isPosition]

end Value

namespace Table

variable {t : Table} {k v : Value} {es : List (Value × Value)}

/-! ## Reading -/

theorem lookup_eq_some_iff_mem (h : (es.map Prod.fst).Nodup) :
    es.lookup k = some v ↔ (k, v) ∈ es := by
  induction es with
  | nil => simp
  | cons e rest ih =>
      obtain ⟨k', v'⟩ := e
      rw [List.map_cons, List.nodup_cons] at h
      obtain ⟨hnotMem, hrest⟩ := h
      by_cases hk : k = k'
      · subst hk
        have hother : (k, v) ∉ rest := fun hmem => hnotMem (List.mem_map.mpr ⟨_, hmem, rfl⟩)
        simp [hother, eq_comm]
      · simp [List.lookup_cons, beq_eq_false_iff_ne.mpr hk, ih hrest, hk]

theorem get_of_mem (h : (k, v) ∈ t.entries) : t.get k = v := by
  rw [get, (lookup_eq_some_iff_mem t.keys_nodup).mpr h]
  rfl

theorem mem_of_mem_keys (h : k ∈ t.keys) : (k, t.get k) ∈ t.entries := by
  obtain ⟨⟨k', v⟩, hmem, rfl⟩ := List.mem_map.mp h
  rwa [get_of_mem hmem]

theorem get_of_notMem (h : k ∉ t.keys) : t.get k = .nil := by
  have hnone : t.entries.lookup k = none := by
    rw [Option.eq_none_iff_forall_ne_some]
    intro v hv
    exact h (List.mem_map_of_mem ((lookup_eq_some_iff_mem t.keys_nodup).mp hv))
  rw [get, hnone]
  rfl

theorem lookup_of_mem_keys (h : k ∈ t.keys) : t.entries.lookup k = some (t.get k) :=
  (lookup_eq_some_iff_mem t.keys_nodup).mpr (mem_of_mem_keys h)

/-! ## Building -/

theorem insertEntry_of_notMem (h : k ∉ es.map Prod.fst) :
    insertEntry k v es = es ++ [(k, v)] := by
  induction es with
  | nil => rfl
  | cons e rest ih =>
      rw [List.map_cons, List.mem_cons, not_or] at h
      obtain ⟨hne, hrest⟩ := h
      rw [insertEntry, if_neg (Ne.symm hne), ih hrest, List.cons_append]

theorem entries_foldl_set? (h : ((t.entries ++ es).map Prod.fst).Nodup)
    (hnil : Value.nil ∉ es.map Prod.fst) :
    (es.foldl (fun t e => (t.set? e.1 e.2).getD t) t).entries = t.entries ++ es := by
  induction es generalizing t with
  | nil => exact (List.append_nil _).symm
  | cons e rest ih =>
      rw [List.map_cons, List.mem_cons, not_or] at hnil
      obtain ⟨hne, hrest⟩ := hnil
      have hnew : e.1 ∉ t.entries.map Prod.fst := by
        rw [List.map_append, List.map_cons, List.nodup_append] at h
        obtain ⟨-, -, hdisjoint⟩ := h
        exact fun hmem => hdisjoint _ hmem _ (List.mem_cons_self) rfl
      have hset : (t.set? e.1 e.2).getD t = t.insert e.1 e.2 (Ne.symm hne) := by
        rw [set?, dif_neg (Ne.symm hne)]
        rfl
      have hentries : (t.insert e.1 e.2 (Ne.symm hne)).entries = t.entries ++ [e] :=
        insertEntry_of_notMem hnew
      rw [List.foldl_cons, hset, ih, hentries, List.append_assoc, List.singleton_append]
      · rwa [hentries, List.append_assoc, List.singleton_append]
      · exact hrest

theorem entries_ofEntries (h : (es.map Prod.fst).Nodup) (hnil : Value.nil ∉ es.map Prod.fst) :
    (ofEntries es).entries = es :=
  entries_foldl_set? (t := empty) h hnil

theorem insertFrom_eq_foldl (t : Table) (first : Nat) (values : List Value) :
    t.insertFrom first values
      = ((Value.positions first values.length).zip values).foldl
          (fun t e => (t.set? e.1 e.2).getD t) t := by
  induction values generalizing t first with
  | nil => rfl
  | cons v rest ih =>
      rw [insertFrom, ih]
      rfl

theorem entries_ofValues {values : List Value} (hlength : values.length < 2 ^ 63) :
    (ofValues values).entries = (Value.positions 1 values.length).zip values := by
  have hkeys : ((Value.positions 1 values.length).zip values).map Prod.fst
      = Value.positions 1 values.length :=
    List.map_fst_zip (Nat.le_of_eq (Value.length_positions 1 _))
  rw [ofValues, insertFrom_eq_foldl]
  refine entries_ofEntries ?_ ?_
  · rw [hkeys]
    exact Value.nodup_positions (by omega)
  · rw [hkeys]
    simp [Value.positions]

/-! ## Sequences -/

/-- As many different keys as there are positions are the positions. -/
theorem keys_perm_positions (hkeys : ∀ k ∈ t.keys, isPosition t.size k = true) :
    1 + t.size ≤ 2 ^ 63 ∧ t.keys.Perm (Value.positions 1 t.size) := by
  have hlength : t.keys.length = t.size := List.length_map _
  have hfew : t.keys.length ≤ Int64.maxValue.toInt.toNat := by
    rw [← Value.length_positions 1 Int64.maxValue.toInt.toNat]
    refine (t.keys_nodup.subperm ?_).length_le
    intro k hk
    have hposition := hkeys k hk
    cases k with
    | int i =>
        rw [isPosition, Bool.and_eq_true, decide_eq_true_iff] at hposition
        exact Value.mem_positions_iff.mpr
          ⟨i, rfl, Int64.le_iff_toInt_le.mpr hposition.1, Int64.le_iff_toInt_le.mpr i.toInt_le⟩
    | _ => cases hposition
  have hbound : 1 + t.size ≤ 2 ^ 63 := by
    have hmax : Int64.maxValue.toInt.toNat = 2 ^ 63 - 1 := rfl
    omega
  have hsubset : t.keys ⊆ Value.positions 1 t.size :=
    fun k hk => (Value.mem_positions_iff_isPosition hbound).mpr (hkeys k hk)
  refine ⟨hbound, (t.keys_nodup.subperm hsubset).perm_of_length_le ?_⟩
  rw [Value.length_positions]
  exact hlength.ge

/-- The keys 1, 2 and so on, whatever order they came in. -/
theorem sequenceValues?_eq_some_iff {values : List Value} :
    sequenceValues? t.entries = some values ↔
      t.size ≠ 0 ∧ 1 + t.size ≤ 2 ^ 63 ∧ t.keys.Perm (Value.positions 1 t.size) ∧
        values = (Value.positions 1 t.size).map t.get := by
  have hpositions : Value.positions 1 t.size
      = (List.range t.size).map fun i => .int (Int64.ofNat (i + 1)) := by
    simp [Value.positions, List.range'_eq_map_range, Nat.add_comm]
  have hlookup (hkeys : t.keys.Perm (Value.positions 1 t.size)) :
      (List.range t.size).mapM (fun i => t.entries.lookup (.int (Int64.ofNat (i + 1))))
        = some ((Value.positions 1 t.size).map t.get) := by
    rw [hpositions, List.map_map]
    refine mapM_eq_pure_map fun i hi => lookup_of_mem_keys (hkeys.mem_iff.mpr ?_)
    rw [hpositions]
    exact List.mem_map.mpr ⟨i, hi, rfl⟩
  have hother : (t.entries.isEmpty || !t.entries.all fun e => isPosition t.entries.length e.1) = true
      ↔ ¬ (t.size ≠ 0 ∧ ∀ k ∈ t.keys, isPosition t.size k = true) := by
    simp [keys, size, imp_iff_not_or]
  rw [sequenceValues?]
  constructor
  · intro hsome
    split_ifs at hsome with htest
    obtain ⟨hnonempty, hkeys⟩ := not_not.mp (mt hother.mpr htest)
    obtain ⟨hbound, hperm⟩ := keys_perm_positions hkeys
    exact ⟨hnonempty, hbound, hperm, Option.some.inj (hsome.symm.trans (hlookup hperm))⟩
  · rintro ⟨hnonempty, hbound, hperm, rfl⟩
    have hkeys : ∀ k ∈ t.keys, isPosition t.size k = true := fun k hk =>
      (Value.mem_positions_iff_isPosition hbound).mp (hperm.mem_iff.mp hk)
    rw [if_neg fun htest => hother.mp htest ⟨hnonempty, hkeys⟩]
    exact hlookup hperm

/-- A sequence has the values of the table. -/
theorem forall_sequenceValues?_iff {values : List Value} {P : Value → Prop}
    (hvalues : sequenceValues? t.entries = some values) :
    (∀ v ∈ values, P v) ↔ ∀ e ∈ t.entries, P e.2 := by
  obtain ⟨-, -, hperm, rfl⟩ := sequenceValues?_eq_some_iff.mp hvalues
  rw [List.forall_mem_map]
  constructor
  · intro hall e he
    rw [← get_of_mem he]
    exact hall e.1 (hperm.mem_iff.mp (List.mem_map_of_mem he))
  · intro hall k hk
    exact hall _ (mem_of_mem_keys (hperm.mem_iff.mpr hk))

/-- Texts are never positions, even those that look like numbers. -/
theorem sequenceValues?_of_texts (hkeys : ∀ k ∈ t.keys, k.kind = .string) :
    sequenceValues? t.entries = none := by
  rw [Option.eq_none_iff_forall_ne_some]
  intro values hvalues
  obtain ⟨hnonempty, -, hperm, -⟩ := sequenceValues?_eq_some_iff.mp hvalues
  obtain ⟨n, hn⟩ := Nat.exists_eq_succ_of_ne_zero hnonempty
  have hone : Value.int (Int64.ofNat 1) ∈ t.keys := by
    rw [hperm.mem_iff, hn]
    exact List.mem_cons_self
  cases hkeys _ hone

end Table

end LuaBytecode
