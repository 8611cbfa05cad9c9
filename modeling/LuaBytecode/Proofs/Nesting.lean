import Mathlib
import LuaBytecode.Proofs.Stripping

/-! # The limit on nesting

All conversions between tables and JSON stop at the same depth. Each of them counts down
the levels that are left, and the only way in which it can fail inside a table or a JSON
value is that none is left. So each succeeds exactly on what is low enough; that a table
may contain itself needs no attention of its own.
-/

namespace LuaBytecode

/-! ## Conversions that may fail -/

/-- The conversion succeeds if `P` holds, and fails otherwise. -/
structure Decides {α : Type} (x : Except JsonFault α) (P : Prop) (fault : JsonFault) : Prop where
  success : P → ∃ a, x = .ok a
  failure : ¬ P → x = .error fault

namespace Decides

variable {α β : Type} {P Q : Prop} {fault : JsonFault}

theorem ok (hP : P) (a : α) : Decides (.ok a) P fault :=
  ⟨fun _ => ⟨a, rfl⟩, fun hnot => absurd hP hnot⟩

theorem congr {x : Except JsonFault α} (hPQ : P ↔ Q) (hx : Decides x P fault) :
    Decides x Q fault :=
  propext hPQ ▸ hx

theorem bind_pure {x : Except JsonFault α} (hx : Decides x P fault) (f : α → β) :
    Decides (x >>= fun a => pure (f a)) P fault := by
  constructor
  · intro hP
    obtain ⟨a, rfl⟩ := hx.success hP
    exact ⟨f a, rfl⟩
  · intro hP
    rw [hx.failure hP]
    rfl

theorem map {x : Except JsonFault α} (hx : Decides x P fault) (f : α → β) :
    Decides (x.map f) P fault :=
  hx.bind_pure f

theorem ok_iff {x : Except JsonFault α} (hx : Decides x P fault) : (∃ a, x = .ok a) ↔ P := by
  constructor
  · rintro ⟨a, rfl⟩
    by_contra hP
    cases hx.failure hP
  · exact hx.success

theorem mapM {f : α → Except JsonFault β} {P : α → Prop} {xs : List α}
    (hxs : ∀ x ∈ xs, Decides (f x) (P x) fault) :
    Decides (xs.mapM f) (∀ x ∈ xs, P x) fault := by
  induction xs with
  | nil => exact .ok nofun []
  | cons x rest ih =>
      have hx := hxs x List.mem_cons_self
      have hrest := ih fun y hy => hxs y (List.mem_cons_of_mem x hy)
      rw [List.mapM_cons, List.forall_mem_cons]
      by_cases hP : P x
      · obtain ⟨b, hb⟩ := hx.success hP
        rw [hb]
        exact .congr (and_iff_right hP).symm (hrest.bind_pure (b :: ·))
      · refine ⟨fun hall => absurd hall.1 hP, fun _ => ?_⟩
        rw [hx.failure hP]
        rfl

end Decides

namespace Table

variable {h : Heap} {t : Table} {levels : Nat}

/-! ## To JSON -/

theorem forall_values_iff {values : List Value} {P : Value → Prop}
    (hvalues : sequenceValues? t.dataEntries = some values) :
    (∀ v ∈ values, P v) ↔ ∀ e ∈ t.dataEntries, P e.2 :=
  forall_sequenceValues?_iff (t := t.filter fun e => !e.2.isCallable) hvalues

theorem valueToJson_scalar {v : Value} (hv : v.table? = none) :
    ∃ j : Json, ¬ j.IsContainer ∧ ∀ convert, valueToJson convert v = .ok j := by
  cases v with
  | table ref => cases hv
  | float f =>
      refine ⟨if f.isFinite then .float f else .null, ?_, fun _ => rfl⟩
      split
      · exact id
      · exact id
  | _ => exact ⟨_, id, fun _ => rfl⟩

theorem decides_valueToJson {convert : TableRef → Except JsonFault Json} {P : TableRef → Prop}
    {fault : JsonFault} (hconvert : ∀ ref, Decides (convert ref) (P ref) fault) (v : Value) :
    Decides (valueToJson convert v) (∀ ref, v = .table ref → P ref) fault := by
  cases hv : v.table? with
  | none =>
      obtain ⟨j, -, hj⟩ := valueToJson_scalar hv
      rw [hj]
      refine .ok ?_ j
      rintro ref rfl
      cases hv
  | some ref =>
      cases table?_eq_some_iff.mp hv
      exact .congr ⟨fun hP _ href => Value.table.inj href ▸ hP, fun hP => hP ref rfl⟩
        (hconvert ref)

theorem decides_toJsonWithin :
    Decides (toJsonWithin h levels t) (height h t < levels) (.unwritable nestingLimit) := by
  induction levels generalizing t with
  | zero => exact ⟨fun hlow => absurd hlow not_lt_zero, fun _ => rfl⟩
  | succ levels ih =>
      have hvalue := decides_valueToJson fun ref => ih (t := h.table ref)
      refine .congr (forall_dataEntries_iff.trans height_lt_succ_iff.symm) ?_
      cases hvalues : sequenceValues? t.dataEntries with
      | none =>
          rw [toJsonWithin_fields hvalues]
          exact (Decides.mapM fun e _ => (hvalue e.2).bind_pure _).bind_pure _
      | some values =>
          rw [toJsonWithin_sequence hvalues]
          exact .congr (forall_values_iff hvalues)
            ((Decides.mapM fun v _ => hvalue v).bind_pure _)

/-! ## From JSON -/

section

variable {j : Json}

theorem valueFromJson_scalar (hj : ¬ j.IsContainer) :
    ∃ v, ∀ levels, valueFromJson levels j = pure v := by
  cases j with
  | arr items => exact absurd trivial hj
  | obj fields => exact absurd trivial hj
  | _ => exact ⟨_, fun levels => by rw [valueFromJson]⟩

theorem settles_fromJsonWithin (hj : j.IsContainer)
    (hvalues : ∀ (j : Json) (h : Heap), Settles h (valueFromJson levels j) (j.depth ≤ levels)
      (.tooDeep nestingLimit) fun _ _ => True) (h : Heap) :
    Settles h (fromJsonWithin levels j) (j.depth ≤ levels + 1) (.tooDeep nestingLimit)
      fun _ _ => True := by
  cases j with
  | arr items =>
      refine .congr Json.depth_arr_le_succ_iff.symm ?_
      rw [fromJsonWithin]
      refine (Settles.mapM (fun _ _ _ _ _ _ => trivial) fun item _ h' _ => hvalues item h').bind ?_
      exact fun _ _ _ _ => .pure trivial
  | obj fields =>
      refine .congr Json.depth_obj_le_succ_iff.symm ?_
      rw [fromJsonWithin]
      refine (Settles.mapM (R := fun _ _ _ => True) (fun _ _ _ _ _ _ => trivial) fun f _ h' _ =>
        (hvalues f.2 h').bind fun _ _ _ _ => .pure trivial).bind ?_
      exact fun _ _ _ _ => .pure trivial
  | _ => cases hj

theorem settles_scalar (hj : ¬ j.IsContainer) (h : Heap) :
    Settles h (valueFromJson levels j) (j.depth ≤ levels) (.tooDeep nestingLimit)
      fun _ _ => True := by
  obtain ⟨v, hv⟩ := valueFromJson_scalar hj
  rw [hv, Json.depth_eq_zero_of_scalar hj]
  exact .of_loads levels.zero_le (.pure trivial)

theorem settles_valueFromJson (j : Json) (h : Heap) :
    Settles h (valueFromJson levels j) (j.depth ≤ levels) (.tooDeep nestingLimit)
      fun _ _ => True := by
  induction levels generalizing j h with
  | zero =>
      by_cases hj : j.IsContainer
      · have hdeep : ¬ j.depth ≤ 0 := fun hzero => hj.depth_ne_zero (Nat.le_zero.mp hzero)
        cases j with
        | arr items => exact .throw hdeep
        | obj fields => exact .throw hdeep
        | _ => cases hj
      · exact settles_scalar hj h
  | succ levels ih =>
      by_cases hj : j.IsContainer
      · rw [valueFromJson_container hj]
        exact (settles_fromJsonWithin hj ih h).bind fun _ _ _ _ => .allocate trivial
      · exact settles_scalar hj h

end

/-! ## The common limit -/

theorem decides_toJsonOrdered :
    Decides (t.toJsonOrdered h) (height h t ≤ nestingLimit) (.unwritable nestingLimit) :=
  .congr height_lt_succ_iff_le decides_toJsonWithin

theorem settles_fromJson {j : Json} (hj : j.IsContainer) (h₀ : Heap) :
    Settles h₀ (fromJson j) (j.depth ≤ nestingLimit + 1) (.tooDeep nestingLimit)
      fun _ _ => True := by
  rw [fromJson_eq_within]
  exact settles_fromJsonWithin hj settles_valueFromJson h₀

theorem fromJson_scalar {j : Json} (hj : ¬ j.IsContainer) (hnull : j ≠ .null) (h₀ : Heap) :
    fromJson j h₀ = .error (.notATable j.kindName) h₀ := by
  cases j with
  | null => exact absurd rfl hnull
  | arr items => exact absurd trivial hj
  | obj fields => exact absurd trivial hj
  | _ => rfl

theorem fromJson_ok_iff (j : Json) (h₀ : Heap) :
    (∃ t h₁, fromJson j h₀ = .ok t h₁) ↔
      j = .null ∨ (j.IsContainer ∧ j.depth ≤ nestingLimit + 1) := by
  by_cases hj : j.IsContainer
  · rw [(settles_fromJson hj h₀).ok_iff]
    constructor
    · exact fun hlow => .inr ⟨hj, hlow⟩
    · rintro (rfl | ⟨-, hlow⟩)
      · cases hj
      · exact hlow
  · constructor
    · rintro ⟨t, h₁, hok⟩
      left
      by_contra hnull
      cases hok.symm.trans (fromJson_scalar hj hnull h₀)
    · rintro (rfl | ⟨hcontainer, -⟩)
      · exact ⟨empty, h₀, rfl⟩
      · exact absurd hcontainer hj

/-- **All conversions stop at the same nesting.** A table is converted to JSON, written as
text or stripped exactly if no chain of tables, each a value of the one before, goes more
than 128 steps down from it; otherwise all three fail, with one text. A JSON value is
converted to a table exactly if it is null, or an array or object with at most 128 more
inside each other; another scalar is no table, and what nests deeper is refused. -/
theorem conversions_stop_at_limit (hlives : t.LivesIn h) :
    ((∃ j, t.toJson h = .ok j) ↔ height h t ≤ 128) ∧
    ((∃ s, t.toJsonText h = .ok s) ↔ height h t ≤ 128) ∧
    ((∃ s h', strip t h = .ok s h') ↔ height h t ≤ 128) ∧
    (¬ height h t ≤ 128 →
      t.toJson h = .error (.unwritable 128) ∧ t.toJsonText h = .error (.unwritable 128) ∧
      ∃ h', strip t h = .error (.tooDeep 128) h') ∧
    (JsonFault.unwritable 128).message = (JsonFault.tooDeep 128).message ∧
    ∀ (j : Json) (h₀ : Heap),
      ((∃ t' h₁, fromJson j h₀ = .ok t' h₁) ↔
        j = .null ∨ (j.IsContainer ∧ j.depth ≤ 128 + 1)) ∧
      (¬ j.IsContainer → j ≠ .null → fromJson j h₀ = .error (.notATable j.kindName) h₀) ∧
      (j.IsContainer → 128 + 1 < j.depth → ∃ h₁, fromJson j h₀ = .error (.tooDeep 128) h₁) := by
  have hjson := (decides_toJsonOrdered (h := h) (t := t)).map Json.normalize
  have htext := (decides_toJsonOrdered (h := h) (t := t)).map Json.text
  have hstrip := settles_strip hlives
  refine ⟨hjson.ok_iff, htext.ok_iff, hstrip.ok_iff, ?_, rfl, fun j h₀ => ?_⟩
  · intro hhigh
    exact ⟨hjson.failure hhigh, htext.failure hhigh, hstrip.failure hhigh⟩
  · refine ⟨fromJson_ok_iff j h₀, fun hj hnull => fromJson_scalar hj hnull h₀, ?_⟩
    intro hj hdeep
    exact (settles_fromJson hj h₀).failure (Nat.not_le.mpr hdeep)

/-- A table that is its own only value. -/
def loopHeap : Heap where
  tables := #[ofEntries [(.str "me", .table 0)]]

theorem conversions_stop_at_limit_loop :
    (loopHeap.table 0).LivesIn loopHeap ∧ height loopHeap (loopHeap.table 0) = ⊤ ∧
    (loopHeap.table 0).toJson loopHeap = .error (.unwritable 128) ∧
    (loopHeap.table 0).toJsonText loopHeap = .error (.unwritable 128) ∧
    ∃ h', strip (loopHeap.table 0) loopHeap = .error (.tooDeep 128) h' := by
  have hloop {u : Table} : Holds loopHeap (loopHeap.table 0) u ↔ u = loopHeap.table 0 := by
    rw [holds_iff, show (loopHeap.table 0).entries.filterMap (fun e => e.2.table?) = [0] by decide]
    simp
  have hreached {u : Table} (hu : Relation.ReflTransGen (Holds loopHeap) (loopHeap.table 0) u) :
      u = loopHeap.table 0 := by
    induction hu with
    | refl => rfl
    | tail _ hholds ih =>
        subst ih
        exact hloop.mp hholds
  have hlives : (loopHeap.table 0).LivesIn loopHeap := by
    rintro ref ⟨u, k, hu, hmem⟩
    have href : ref ∈ u.entries.filterMap fun e => e.2.table? :=
      List.mem_filterMap.mpr ⟨_, hmem, rfl⟩
    clear hmem
    rw [hreached hu] at href
    revert ref
    decide
  have htop : height loopHeap (loopHeap.table 0) = ⊤ :=
    height_eq_top_of_cycle (.single (hloop.mpr rfl))
  obtain ⟨-, -, -, hfails, -⟩ := conversions_stop_at_limit hlives
  have hhigh : ¬ height loopHeap (loopHeap.table 0) ≤ 128 := by
    rw [htop]
    decide
  exact ⟨hlives, htop, hfails hhigh⟩

end Table

end LuaBytecode
