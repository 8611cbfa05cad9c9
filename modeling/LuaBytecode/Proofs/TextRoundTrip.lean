import Mathlib
import LuaBytecode.Proofs.JsonText

/-! # Tables as text and back

Tables may nest 128 deep below the one that is written, but the reader opens no more than
127 arrays and objects, that of the table itself among them. So the text of a table is read
again exactly if tables nest at most 126 deep below it. The JSON value of a table has one
level for each table of the longest chain, which is all that the reader asks about.
-/

namespace LuaBytecode.Table

open Json (Legible)

variable {h : Heap} {t : Table} {levels : Nat}

/-! ## What is written -/

theorem forall_mem_iff_of_mapM {α β : Type} {f : α → Except JsonFault β} {P : α → Prop}
    {Q : β → Prop} (hPQ : ∀ {x y}, f x = .ok y → (P x ↔ Q y)) {xs : List α} {ys : List β}
    (hys : xs.mapM f = .ok ys) : (∀ x ∈ xs, P x) ↔ ∀ y ∈ ys, Q y := by
  have hall := forall₂_of_mapM_eq_ok hys
  clear hys
  induction hall with
  | nil => exact iff_of_true nofun nofun
  | cons hy _ ih =>
      rw [List.forall_mem_cons, List.forall_mem_cons]
      exact and_congr (hPQ hy) ih

/-- What the JSON value of a table has from its parts, each the conversion of a value with one
level less. -/
structure WrittenParts (h : Heap) (levels : Nat) (t : Table) (j : Json) : Prop where
  container : j.IsContainer
  legible : (∀ {v p}, valueToJson (fun ref => toJsonWithin h levels (h.table ref)) v = .ok p →
    p.Legible) → j.Legible
  depth_le_iff : ∀ {n : Nat} {P : Value → Prop},
    (∀ {v p}, valueToJson (fun ref => toJsonWithin h levels (h.table ref)) v = .ok p →
      (P v ↔ p.depth ≤ n)) → (j.depth ≤ n + 1 ↔ ∀ e ∈ t.dataEntries, P e.2)

theorem writtenParts {j : Json} (hj : toJsonWithin h (levels + 1) t = .ok j) :
    WrittenParts h levels t j := by
  cases hvalues : sequenceValues? t.dataEntries with
  | some values =>
      rw [toJsonWithin_sequence hvalues] at hj
      obtain ⟨items, hitems, hj⟩ := exists_of_bind_eq_ok hj
      cases hj
      refine ⟨trivial, fun hlegible => ?_, fun hP => ?_⟩
      · refine Json.legible_arr ((forall_mem_iff_of_mapM (P := fun _ => True) ?_ hitems).mp ?_)
        · exact fun hp => iff_of_true trivial (hlegible hp)
        · exact fun _ _ => trivial
      · rw [Json.depth_arr_le_succ_iff, ← forall_mem_iff_of_mapM hP hitems]
        exact forall_values_iff hvalues
  | none =>
      rw [toJsonWithin_fields hvalues] at hj
      obtain ⟨fields, hfields, hj⟩ := exists_of_bind_eq_ok hj
      cases hj
      refine ⟨trivial, fun hlegible => ?_, fun hP => ?_⟩
      · refine Json.legible_obj ((forall_mem_iff_of_mapM (P := fun _ => True) ?_ hfields).mp ?_)
        · intro e f hf
          obtain ⟨p, hp, hf⟩ := exists_of_bind_eq_ok hf
          cases hf
          exact iff_of_true trivial (hlegible hp)
        · exact fun _ _ => trivial
      · rw [Json.depth_obj_le_succ_iff]
        refine (forall_mem_iff_of_mapM ?_ hfields).symm
        intro e f hf
        obtain ⟨p, hp, hf⟩ := exists_of_bind_eq_ok hf
        cases hf
        exact hP hp

theorem legible_of_valueToJson {convert : TableRef → Except JsonFault Json}
    (hconvert : ∀ {ref j}, convert ref = .ok j → j.Legible) {v : Value} {j : Json}
    (hj : valueToJson convert v = .ok j) : j.Legible := by
  cases v with
  | table ref => exact hconvert hj
  | bool b =>
      cases hj
      exact Json.legible_bool b
  | int i =>
      cases hj
      exact Json.legible_int i.le_toInt (i.toInt_lt.trans (by decide))
  | float f =>
      cases hj
      split
      · exact Json.legible_float f
      · exact Json.legible_null
  | str s =>
      cases hj
      exact Json.legible_str s
  | _ =>
      cases hj
      exact Json.legible_null

theorem depth_of_valueToJson {convert : TableRef → Except JsonFault Json}
    {P : TableRef → Prop} {n : Nat}
    (hconvert : ∀ {ref j}, convert ref = .ok j → (P ref ↔ j.depth ≤ n)) {v : Value} {j : Json}
    (hj : valueToJson convert v = .ok j) : (∀ ref, v = .table ref → P ref) ↔ j.depth ≤ n := by
  cases hv : v.table? with
  | none =>
      obtain ⟨p, hscalar, hp⟩ := valueToJson_scalar hv
      rw [hp] at hj
      cases hj
      rw [Json.depth_eq_zero_of_scalar hscalar]
      refine iff_of_true ?_ n.zero_le
      rintro ref rfl
      cases hv
  | some ref =>
      cases table?_eq_some_iff.mp hv
      rw [← hconvert hj]
      exact ⟨fun hP => hP ref rfl, fun hP _ href => Value.table.inj href ▸ hP⟩

theorem legible_of_toJsonWithin {j : Json} (hj : toJsonWithin h levels t = .ok j) : j.Legible := by
  induction levels generalizing t j with
  | zero => cases hj
  | succ levels ih => exact (writtenParts hj).legible (legible_of_valueToJson ih)

/-- A table's JSON value has one level for the table and one for each that follows it in the
longest chain. -/
theorem depth_le_iff_height_lt {j : Json} {n : Nat} (hj : toJsonWithin h levels t = .ok j) :
    j.depth ≤ n ↔ height h t < n := by
  induction levels generalizing t j n with
  | zero => cases hj
  | succ levels ih =>
      have hparts := writtenParts hj
      cases n with
      | zero =>
          refine iff_of_false (fun hzero => ?_) not_lt_zero
          exact hparts.container.depth_ne_zero (Nat.le_zero.mp hzero)
      | succ n =>
          rw [hparts.depth_le_iff (depth_of_valueToJson fun hj => (ih hj).symm)]
          exact forall_dataEntries_iff.trans height_lt_succ_iff.symm

/-! ## What is read -/

section

variable {j : Json} {s : String}

theorem exists_of_toJsonText (hs : t.toJsonText h = .ok s) :
    ∃ j, t.toJsonOrdered h = .ok j ∧ j.text = s :=
  exists_of_map_eq_ok hs

theorem fromJsonText_of_low (hs : t.toJsonText h = .ok s) (hlow : height h t ≤ 126) (h₀ : Heap) :
    ∃ t' h₁, fromJsonText s h₀ = .ok t' h₁ := by
  obtain ⟨j, hj, rfl⟩ := exists_of_toJsonText hs
  have hdepth : j.depth ≤ Json.readerLimit :=
    (depth_le_iff_height_lt hj).mpr (height_lt_succ_iff_le.mpr hlow)
  obtain ⟨v, hv, hcontainer, hlevels⟩ :=
    Json.parse?_text (writtenParts hj).container (legible_of_toJsonWithin hj) hdepth
  rw [fromJsonText, hv]
  exact (fromJson_ok_iff v h₀).mpr (.inr ⟨hcontainer, hlevels.trans (by decide)⟩)

theorem fromJsonText_of_high (hs : t.toJsonText h = .ok s) (hhigh : ¬ height h t ≤ 126)
    (h₀ : Heap) : fromJsonText s h₀ = .error .malformed h₀ := by
  obtain ⟨j, hj, rfl⟩ := exists_of_toJsonText hs
  have hdepth : ¬ j.depth ≤ Json.readerLimit := fun hdepth =>
    hhigh (height_lt_succ_iff_le.mp ((depth_le_iff_height_lt hj).mp hdepth))
  rw [fromJsonText, Json.parse?_text_of_deep (legible_of_toJsonWithin hj) hdepth]
  rfl

end

/-- **The text of a table is read again if tables nest at most 126 deep below it.** Otherwise
it is refused, as if it were no JSON. The writer itself goes two levels deeper. -/
theorem fromJsonText_toJsonText {s : String} (hs : t.toJsonText h = .ok s) (h₀ : Heap) :
    ((∃ t' h₁, fromJsonText s h₀ = .ok t' h₁) ↔ height h t ≤ 126) ∧
    (¬ height h t ≤ 126 → fromJsonText s h₀ = .error .malformed h₀) := by
  refine ⟨⟨fun ⟨t', h₁, hok⟩ => ?_, fun hlow => fromJsonText_of_low hs hlow h₀⟩,
    fun hhigh => fromJsonText_of_high hs hhigh h₀⟩
  by_contra hhigh
  cases hok.symm.trans (fromJsonText_of_high hs hhigh h₀)

/-! ## At the limit -/

/-- Lists inside each other, and a number in the innermost. -/
def nested : Nat → Json
  | 0 => .int 1
  | n + 1 => .arr [nested n]

theorem depth_nested (n : Nat) : (nested n).depth = n := by
  induction n with
  | zero => rfl
  | succ n ih => rw [nested, Json.depth, Json.itemsDepth, Json.itemsDepth, ih, Nat.max_zero]

theorem chars_nested (n : Nat) :
    (nested n).chars = List.replicate n '[' ++ '1' :: List.replicate n ']' := by
  induction n with
  | zero => rfl
  | succ n ih =>
      rw [nested, Json.chars, Json.itemChars, Json.itemChars, Json.separated, ih,
        List.replicate_succ, List.replicate_succ']
      simp

/-- The tables of such lists, the innermost first. -/
def tower (n : Nat) : Heap where
  tables := (ofValues [.int 1] :: (List.range n).map fun i => ofValues [.table i]).toArray

theorem toJsonWithin_singleton {v : Value} {j : Json} (hv : v.isCallable = false)
    (hj : valueToJson (fun ref => toJsonWithin h levels (h.table ref)) v = .ok j) :
    toJsonWithin h (levels + 1) (ofValues [v]) = .ok (.arr [j]) := by
  have hentries : (ofValues [v]).entries = [(.int 1, v)] := rfl
  have hdata : (ofValues [v]).dataEntries = [(.int 1, v)] := by
    rw [dataEntries_eq_of_forall, hentries]
    simpa [hentries] using hv
  have hvalues : sequenceValues? (ofValues [v]).dataEntries = some [v] := by
    rw [hdata]
    rfl
  rw [toJsonWithin_sequence hvalues, List.mapM_cons, hj]
  rfl

theorem toJsonWithin_tower {n i : Nat} (hi : i ≤ n) (hlevels : i < levels) :
    toJsonWithin (tower n) levels ((tower n).table i) = .ok (nested (i + 1)) := by
  obtain ⟨levels, rfl⟩ := Nat.exists_eq_succ_of_ne_zero (Nat.ne_zero_of_lt hlevels)
  induction i generalizing levels with
  | zero => exact toJsonWithin_singleton rfl rfl
  | succ i ih =>
      have htable : (tower n).table (i + 1) = ofValues [.table i] := by
        simp [Heap.table, tower, Nat.lt_of_succ_le hi]
      obtain ⟨levels, rfl⟩ := Nat.exists_eq_succ_of_ne_zero (show levels ≠ 0 by omega)
      rw [htable]
      exact toJsonWithin_singleton rfl (ih (Nat.le_of_succ_le hi) levels (by omega))

theorem height_tower (n : Nat) : height (tower n) ((tower n).table n) = n := by
  -- the height is read off the JSON value, which has one level more
  have hlt (m : Nat) : height (tower n) ((tower n).table n) < m ↔ n < m := by
    rw [← depth_le_iff_height_lt (toJsonWithin_tower le_rfl n.lt_succ_self), depth_nested,
      Nat.succ_le_iff]
  refine le_antisymm (height_lt_succ_iff_le.mp ((hlt _).mpr n.lt_succ_self)) ?_
  exact not_lt.mp fun hless => lt_irrefl n ((hlt n).mp hless)

theorem toJsonText_tower {n : Nat} (hn : n ≤ nestingLimit) :
    ((tower n).table n).toJsonText (tower n)
      = .ok (String.ofList (List.replicate (n + 1) '[' ++ '1' :: List.replicate (n + 1) ']')) := by
  rw [toJsonText, toJsonOrdered, toJsonWithin_tower le_rfl (Nat.lt_succ_of_le hn), ← chars_nested]
  rfl

/-- Lists that nest 127 deep below the first are written, and the text is refused. -/
theorem fromJsonText_refuses_written :
    ∃ s, s = String.ofList (List.replicate 128 '[' ++ '1' :: List.replicate 128 ']') ∧
      ((tower 127).table 127).toJsonText (tower 127) = .ok s ∧
      ∀ h₀, fromJsonText s h₀ = .error .malformed h₀ := by
  have hs := toJsonText_tower (show 127 ≤ nestingLimit by decide)
  refine ⟨_, rfl, hs, fromJsonText_of_high hs ?_⟩
  rw [height_tower]
  decide

theorem fromJsonText_toJsonText_tower :
    (∃ s, ((tower 126).table 126).toJsonText (tower 126) = .ok s ∧
      ∃ t' h₁, fromJsonText s .empty = .ok t' h₁) ∧
    ∃ s, ((tower 127).table 127).toJsonText (tower 127) = .ok s ∧
      fromJsonText s .empty = .error .malformed .empty := by
  have hlow := toJsonText_tower (show 126 ≤ nestingLimit by decide)
  have hhigh := toJsonText_tower (show 127 ≤ nestingLimit by decide)
  refine ⟨⟨_, hlow, (fromJsonText_toJsonText hlow .empty).1.mpr ?_⟩,
    _, hhigh, (fromJsonText_toJsonText hhigh .empty).2 ?_⟩
  · rw [height_tower]
    decide
  · rw [height_tower]
    decide

end LuaBytecode.Table
