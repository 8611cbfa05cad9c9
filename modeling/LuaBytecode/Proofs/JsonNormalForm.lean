import Mathlib
import LuaBytecode.Proofs.Nesting
import LuaBytecode.Proofs.Rounding

/-! # JSON through tables and back

A JSON value that is converted to a table and back changes only where tables have no
form for it: an empty array is the same table as an empty object, and integers beyond
64 signed bits are floats. The way back decides anew at every level whether a table is
an array, and nulls keep their places in it; names that look like numbers stay names.
-/

namespace LuaBytecode

namespace Json

/-! ## Values and their forms as tables -/

/-- What JSON numbers, arrays and objects can be in memory: integers have 64 bits, with or
without a sign, floats are finite, and the fields of an object are sorted by name. -/
inductive Proper : Json → Prop
  | null : Proper .null
  | bool (b : Bool) : Proper (.bool b)
  | int {n : Int} (least : -2 ^ 63 ≤ n) (greatest : n < 2 ^ 64) : Proper (.int n)
  | float {f : Binary64} (finite : f.isFinite = true) : Proper (.float f)
  | str (s : String) : Proper (.str s)
  | arr {items : List Json} (length : items.length < 2 ^ 63)
      (proper : ∀ item ∈ items, Proper item) : Proper (.arr items)
  | obj {fields : List (String × Json)} (sorted : (fields.map Prod.fst).Pairwise (· < ·))
      (proper : ∀ f ∈ fields, Proper f.2) : Proper (.obj fields)

mutual

/-- The value without empty arrays and without integers beyond 64 signed bits. -/
def tabular : Json → Json
  | .int n => if n ≤ Int64.maxValue.toInt then .int n else .float (.ofInt n)
  | .arr items => if items.isEmpty then .obj [] else .arr (tabularItems items)
  | .obj fields => .obj (tabularFields fields)
  | other => other

def tabularItems : List Json → List Json
  | [] => []
  | item :: rest => item.tabular :: tabularItems rest

def tabularFields : List (String × Json) → List (String × Json)
  | [] => []
  | (name, value) :: rest => (name, value.tabular) :: tabularFields rest

end

/-- The same for a whole value, for which null is the empty table. -/
def tabularRoot : Json → Json
  | .null => .obj []
  | other => other.tabular

theorem tabularItems_eq_map (items : List Json) : tabularItems items = items.map tabular := by
  induction items with
  | nil => rfl
  | cons item rest ih => rw [tabularItems, ih, List.map_cons]

theorem tabularFields_eq_map (fields : List (String × Json)) :
    tabularFields fields = fields.map fun f => (f.1, f.2.tabular) := by
  induction fields with
  | nil => rfl
  | cons f rest ih => rw [tabularFields, ih, List.map_cons]

/-! ## Sorted fields -/

theorem sortFields_of_sorted {fields : List (String × Json)}
    (hsorted : (fields.map Prod.fst).Pairwise (· < ·)) : sortFields fields = fields := by
  have hnodup : (fields.map Prod.fst).Nodup := hsorted.imp fun hlt => ne_of_lt hlt
  have hstill := List.pairwise_map.mp (sorted_sortFields fields)
  exact (sortFields_perm hnodup).eq_of_pairwise (fun _ _ _ _ hab hba => absurd hba (lt_asymm hab))
    hstill (List.pairwise_map.mp hsorted)

theorem Proper.normalize_tabular {j : Json} (hj : j.Proper) :
    j.tabular.normalize = j.tabular := by
  induction hj with
  | int least greatest =>
      rw [tabular]
      split
      · rfl
      · rfl
  | @arr items length _ ih =>
      rw [tabular]
      split
      · rfl
      · rw [normalize, normalizeItems_eq_map, tabularItems_eq_map, List.map_map]
        exact congrArg Json.arr (List.map_congr_left ih)
  | @obj fields sorted _ ih =>
      have hfields : (tabularFields fields).map (fun f => (f.1, f.2.normalize))
          = tabularFields fields := by
        rw [tabularFields_eq_map, List.map_map]
        exact List.map_congr_left fun f hf => congrArg (Prod.mk f.1) (ih f hf)
      have hsorted : ((tabularFields fields).map Prod.fst).Pairwise (· < ·) := by
        rw [tabularFields_eq_map, List.map_map]
        exact sorted
      rw [tabular, normalize, normalizeFields_eq_map, hfields, sortFields_of_sorted hsorted]
  | _ => rfl

end Json

/-! ## Being written

What has been read into a heap is to be written from a later one, in which more tables
have been added. -/

/-- From this heap on the value is written as `j`, with `levels` levels for tables in it. -/
structure Value.WrittenAs (h : Heap) (levels : Nat) (v : Value) (j : Json) : Prop where
  notCallable : v.isCallable = false
  written : ∀ h', h.Grows h' →
    Table.valueToJson (fun ref => Table.toJsonWithin h' levels (h'.table ref)) v = .ok j

/-- From this heap on the table is written as `j`, with `levels` levels for tables in it. -/
def Table.WrittenAs (h : Heap) (levels : Nat) (t : Table) (j : Json) : Prop :=
  ∀ h', h.Grows h' → toJsonWithin h' (levels + 1) t = .ok j

theorem Value.WrittenAs.grow {h h' : Heap} (hgrows : h.Grows h') {levels : Nat} {v : Value}
    {j : Json} (hv : v.WrittenAs h levels j) : v.WrittenAs h' levels j :=
  ⟨hv.notCallable, fun _ hlater => hv.written _ (hgrows.trans hlater)⟩

namespace Table

variable {h : Heap} {t : Table} {levels : Nat}

/-! ## Scalars -/

theorem writtenAs_int {n : Int} (hleast : -2 ^ 63 ≤ n) (hgreatest : n < 2 ^ 64) :
    (intFromJson n).WrittenAs h levels (Json.int n).tabular := by
  have hmin : Int64.minValue.toInt = -2 ^ 63 := rfl
  have hmax : Int64.maxValue.toInt = 2 ^ 63 - 1 := rfl
  rw [intFromJson, Json.tabular]
  by_cases hfits : n ≤ Int64.maxValue.toInt
  · rw [if_pos hfits, if_pos ⟨hmin ▸ hleast, hfits⟩]
    refine ⟨rfl, fun _ _ => ?_⟩
    rw [valueToJson, Int64.toInt_ofInt_of_le hleast (by omega)]
  · rw [if_neg hfits, if_neg fun hrange => hfits hrange.2]
    refine ⟨rfl, fun _ _ => ?_⟩
    have hpositive : 0 < n := by omega
    have hlog : n.natAbs.log2 < 64 := (Nat.log2_lt (by omega)).mpr (by omega)
    have hfinite : (Binary64.ofInt n).isFinite = true := by
      rw [Binary64.ofInt, decide_eq_false hpositive.not_gt]
      exact Binary64.isFinite_ofNat (hlog.trans (by decide))
    rw [valueToJson, if_pos hfinite]

theorem loads_scalar {j : Json} (hj : ¬ j.IsContainer) (hproper : j.Proper) :
    Loads h (valueFromJson levels j) fun h' v => v.WrittenAs h' levels j.tabular := by
  cases hproper with
  | null =>
      rw [valueFromJson]
      exact .pure ⟨rfl, fun _ _ => rfl⟩
  | bool b =>
      rw [valueFromJson]
      exact .pure ⟨rfl, fun _ _ => rfl⟩
  | int hleast hgreatest =>
      rw [valueFromJson]
      exact .pure (writtenAs_int hleast hgreatest)
  | float hfinite =>
      rw [valueFromJson]
      refine .pure ⟨rfl, fun _ _ => ?_⟩
      rw [valueToJson, if_pos hfinite]
      rfl
  | str s =>
      rw [valueFromJson]
      exact .pure ⟨rfl, fun _ _ => rfl⟩
  | arr => exact absurd trivial hj
  | obj => exact absurd trivial hj

/-! ## Arrays and objects -/

theorem map_get_keys (t : Table) : t.keys.map t.get = t.entries.map Prod.snd := by
  rw [keys, List.map_map]
  exact List.map_congr_left fun e he => get_of_mem he

/-- The values of a list are found again in their order. -/
theorem sequenceValues?_ofValues {values : List Value} (hvalues : values ≠ [])
    (hlength : values.length < 2 ^ 63) :
    sequenceValues? (ofValues values).entries = some values := by
  have hentries := entries_ofValues hlength
  have hkeys : (ofValues values).keys = Value.positions 1 values.length := by
    rw [keys, hentries, List.map_fst_zip (by simp)]
  have hsize : (ofValues values).size = values.length := by
    rw [size, hentries]
    simp
  have hget : (Value.positions 1 values.length).map (ofValues values).get = values := by
    rw [← hkeys, map_get_keys, hentries, List.map_snd_zip (by simp)]
  refine sequenceValues?_eq_some_iff.mpr ?_
  rw [hsize, hkeys, hget]
  exact ⟨by simpa using hvalues, by omega, .refl _, rfl⟩

/-- The items of an array in their order, or an object without fields. -/
theorem writtenAs_ofValues {items : List Json} {values : List Value}
    (hlength : items.length < 2 ^ 63)
    (hvalues : List.Forall₂ (fun j v => Value.WrittenAs h levels v (Json.tabular j)) items values) :
    (ofValues values).WrittenAs h levels (Json.arr items).tabular := by
  intro h' hgrows
  cases items with
  | nil =>
      cases hvalues
      rfl
  | cons item rest =>
      have hsame : values.length = (item :: rest).length := hvalues.length_eq.symm
      have hnonempty : values ≠ [] := by
        rintro rfl
        cases hsame
      have hdata : (ofValues values).dataEntries = (ofValues values).entries := by
        refine dataEntries_eq_of_forall fun e he => ?_
        rw [entries_ofValues (hsame ▸ hlength)] at he
        obtain ⟨j, -, hj⟩ := exists_of_forall₂ hvalues (List.of_mem_zip he).2
        exact hj.notCallable
      have hitems : values.mapM (valueToJson fun ref => toJsonWithin h' levels (h'.table ref))
          = .ok ((item :: rest).map Json.tabular) := by
        rw [mapM_eq_of_forall₂ (hvalues.flip.imp fun _ _ hv => hv.written h' hgrows)]
        exact mapM_eq_pure_map fun _ _ => rfl
      have hsequence := sequenceValues?_ofValues hnonempty (hsame ▸ hlength)
      rw [toJsonWithin_sequence (hdata ▸ hsequence), hitems, Json.tabular,
        Json.tabularItems_eq_map]
      rfl

theorem writtenAs_ofEntries {fields : List (String × Json)} {es : List (Value × Value)}
    (hsorted : (fields.map Prod.fst).Pairwise (· < ·))
    (hes : List.Forall₂ (fun f e => e.1 = Value.str f.1 ∧
      e.2.WrittenAs h levels (Json.tabular f.2)) fields es) :
    (ofEntries es).WrittenAs h levels (Json.obj fields).tabular := by
  intro h' hgrows
  have hkeys : es.map Prod.fst = fields.map fun f => Value.str f.1 := by
    refine (forall₂_entries (P := fun _ => True) (hes.imp ?_)).1
    exact fun _ _ he => ⟨he.1, trivial⟩
  have hentries : (ofEntries es).entries = es := by
    refine entries_ofEntries ?_ ?_
    · rw [hkeys]
      refine List.pairwise_map.mpr ((List.pairwise_map.mp hsorted).imp ?_)
      intro f f' hlt heq
      exact ne_of_lt hlt (Value.str.inj heq)
    · rw [hkeys]
      simp
  have hdata : (ofEntries es).dataEntries = es := by
    rw [dataEntries_eq_of_forall, hentries]
    intro e he
    rw [hentries] at he
    obtain ⟨f, -, -, hf⟩ := exists_of_forall₂ hes he
    exact hf.notCallable
  have htexts : ∀ k ∈ (ofEntries es).keys, k.kind = .string := by
    intro k hk
    rw [keys, hentries, hkeys] at hk
    obtain ⟨f, -, rfl⟩ := List.mem_map.mp hk
    rfl
  have hnone : sequenceValues? (ofEntries es).dataEntries = none := by
    rw [hdata, ← hentries]
    exact sequenceValues?_of_texts htexts
  have hfields : (es.mapM fun e => do
        let value ← valueToJson (fun ref => toJsonWithin h' levels (h'.table ref)) e.2
        return (e.1.text, value))
      = .ok (fields.map fun f => (f.1, f.2.tabular)) := by
    rw [mapM_eq_of_forall₂ (g := fun f => pure (f.1, Json.tabular f.2)) (hes.flip.imp ?_)]
    · exact mapM_eq_pure_map fun _ _ => rfl
    · rintro e f ⟨hkey, hvalue⟩
      rw [hvalue.written h' hgrows, hkey]
      rfl
  rw [toJsonWithin_fields hnone, hdata, hfields, Json.tabular, Json.tabularFields_eq_map]
  rfl

/-! ## Nesting -/

theorem loads_fromJsonWithin {j : Json} (hj : j.IsContainer) (hproper : j.Proper)
    (hdepth : j.depth ≤ levels + 1)
    (hvalues : ∀ {j : Json} {h : Heap}, j.Proper → j.depth ≤ levels →
      Loads h (valueFromJson levels j) fun h' v => v.WrittenAs h' levels j.tabular) :
    Loads h (fromJsonWithin levels j) fun h' t => t.WrittenAs h' levels j.tabular := by
  cases hproper with
  | @arr items hlength hitems =>
      have hlow := Json.depth_arr_le_succ_iff.mp hdepth
      rw [fromJsonWithin]
      have hloads := Loads.mapM (R := fun (item : Json) h' (v : Value) => v.WrittenAs h' levels item.tabular)
        (fun _ _ _ _ hgrows hv => hv.grow hgrows) (h := h)
        fun item hitem _ _ => hvalues (hitems item hitem) (hlow item hitem)
      exact hloads.map fun h' values hvalues => writtenAs_ofValues hlength hvalues
  | @obj fields hsorted hfields =>
      have hlow := Json.depth_obj_le_succ_iff.mp hdepth
      rw [fromJsonWithin]
      have hentry : ∀ f ∈ fields, ∀ h, Loads h (do
            let v ← valueFromJson levels f.2
            return (Value.str f.1, v))
          fun h' e => e.1 = .str f.1 ∧ e.2.WrittenAs h' levels f.2.tabular :=
        fun f hf h => (hvalues (hfields f hf) (hlow f hf)).map fun _ _ hv => ⟨rfl, hv⟩
      have hloads := Loads.mapM (fun _ _ _ _ hgrows he => ⟨he.1, he.2.grow hgrows⟩) (h := h)
        fun f hf h' _ => hentry f hf h'
      exact hloads.map fun h' es hes => writtenAs_ofEntries hsorted hes
  | _ => cases hj

/-- What is read with enough levels is written again with as many. -/
theorem loads_valueFromJson {j : Json} (hproper : j.Proper) (hdepth : j.depth ≤ levels) :
    Loads h (valueFromJson levels j) fun h' v => v.WrittenAs h' levels j.tabular := by
  induction levels generalizing j h with
  | zero =>
      refine loads_scalar ?_ hproper
      exact fun hj => hj.depth_ne_zero (Nat.le_zero.mp hdepth)
  | succ levels ih =>
      by_cases hj : j.IsContainer
      · rw [valueFromJson_container hj]
        refine (loads_fromJsonWithin hj hproper hdepth ih).bind fun h₁ t _ ht => ?_
        refine .allocate ⟨rfl, fun h₂ hgrows => ?_⟩
        have hplace : (h₁.newTable t).1 < (h₁.newTable t).2.tables.size := by
          simp [Heap.newTable]
        rw [valueToJson, hgrows.table _ hplace, h₁.table_newTable_self]
        exact ht h₂ ((h₁.grows_newTable t).trans hgrows)
      · exact loads_scalar hj hproper

/-- **JSON comes back from tables.** Null, an array or an object, with at most 128 more
inside each other, is converted to a table, and the table is converted back to the same
value but for three things: null and every empty array become an empty object, and every
integer beyond 64 signed bits becomes a float. -/
theorem toJson_fromJson {j : Json} (hproper : j.Proper) (hroot : j = .null ∨ j.IsContainer)
    (hdepth : j.depth ≤ 128 + 1) (h₀ : Heap) :
    ∃ t h₁, fromJson j h₀ = .ok t h₁ ∧ h₀.Grows h₁ ∧ t.toJson h₁ = .ok j.tabularRoot := by
  rcases hroot with rfl | hj
  · exact ⟨empty, h₀, rfl, .refl h₀, rfl⟩
  · obtain ⟨t, h₁, hok, hgrows, hwritten⟩ :=
      loads_fromJsonWithin (h := h₀) hj hproper hdepth loads_valueFromJson
    refine ⟨t, h₁, ?_, hgrows, ?_⟩
    · rw [fromJson_eq_within]
      exact hok
    · have hroot : j.tabularRoot = j.tabular := by
        cases hproper with
        | null => cases hj
        | _ => rfl
      rw [toJson, toJsonOrdered, nestingLimit, hwritten h₁ (.refl h₁), hroot]
      exact congrArg Except.ok hproper.normalize_tabular

/-- Names that look like positions, empty arrays, nulls, and the largest integer. -/
def untidy : Json :=
  .obj [("1", .arr []), ("2", .arr [.null, .int 18446744073709551615, .arr [.arr []]]),
    ("3", .null)]

theorem toJson_fromJson_untidy :
    untidy.Proper ∧ untidy.IsContainer ∧ untidy.depth ≤ 128 + 1 ∧
    ∃ t h₁, fromJson untidy {} = .ok t h₁ ∧ t.toJson h₁ = .ok (.obj [("1", .obj []),
      ("2", .arr [.null, .float ⟨0x43F0000000000000⟩, .arr [.obj []]]), ("3", .null)]) := by
  have hempty : (Json.arr []).Proper := .arr (by decide) nofun
  have hnested : (Json.arr [.arr []]).Proper := by
    refine .arr (by decide) ?_
    simpa using hempty
  have hproper : untidy.Proper := by
    refine .obj (by decide) ?_
    have hitems : (Json.arr [.null, .int 18446744073709551615, .arr [.arr []]]).Proper := by
      refine .arr (by decide) ?_
      simpa using ⟨.null, .int (by decide) (by decide), hnested⟩
    simpa using ⟨hempty, hitems, .null⟩
  have hdepth : untidy.depth ≤ 128 + 1 := by decide
  obtain ⟨t, h₁, hfrom, -, hto⟩ := toJson_fromJson hproper (.inr trivial) hdepth {}
  exact ⟨hproper, trivial, hdepth, t, h₁, hfrom, hto⟩

end Table

end LuaBytecode
