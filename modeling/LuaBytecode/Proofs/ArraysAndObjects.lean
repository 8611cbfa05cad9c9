import Mathlib
import LuaBytecode.Proofs.JsonRoundTrip

/-! # Arrays and objects

Whether a table becomes an array or an object depends on the keys of its data alone: on those
entries whose values cannot be called. If there are any, and their keys are the integers from 1 to
their number, they become an array in the order of the keys, whatever order they came in. No key
occurs twice, so it is enough that every key is one of these integers.

Otherwise each of them becomes a field under the text of its key. Different keys can have the same
text, as 1 and "1" do. Then JSON text has both fields, and a JSON value the later one.
-/

namespace LuaBytecode

namespace Table

variable {h : Heap} {t u : Table} {levels : Nat}

/-! ## Keys that are positions -/

/-- There is data, and its keys are the integers from 1 to the number of its entries. -/
def FillsPositions (t : Table) : Prop :=
  1 ≤ t.dataEntries.length ∧ ∀ k, k ∈ t.dataEntries.map Prod.fst ↔
    ∃ i : Int64, k = .int i ∧ 1 ≤ i.toInt ∧ i.toInt ≤ t.dataEntries.length

/-- The table without its callables. -/
def data (t : Table) : Table := t.filter fun e => !e.2.isCallable

theorem entries_data (t : Table) : t.data.entries = t.dataEntries := rfl

theorem isPosition_iff {n : Nat} {k : Value} :
    isPosition n k = true ↔ ∃ i : Int64, k = .int i ∧ 1 ≤ i.toInt ∧ i.toInt ≤ n := by
  cases k <;> simp [isPosition]

theorem fillsPositions_iff_perm :
    t.FillsPositions ↔ t.data.size ≠ 0 ∧ 1 + t.data.size ≤ 2 ^ 63 ∧
      t.data.keys.Perm (Value.positions 1 t.data.size) := by
  constructor
  · rintro ⟨hnonempty, hkeys⟩
    have hpositions : ∀ k ∈ t.data.keys, isPosition t.data.size k = true :=
      fun k hk => isPosition_iff.mpr ((hkeys k).mp hk)
    exact ⟨Nat.one_le_iff_ne_zero.mp hnonempty, keys_perm_positions hpositions⟩
  · rintro ⟨hnonempty, hbound, hperm⟩
    refine ⟨Nat.one_le_iff_ne_zero.mpr hnonempty, fun k => ?_⟩
    rw [← isPosition_iff]
    exact hperm.mem_iff.trans (Value.mem_positions_iff_isPosition hbound)

theorem get_data {k : Value} (hk : k ∈ t.data.keys) : t.data.get k = t.get k := by
  have hmem := mem_of_mem_keys hk
  exact (get_of_mem (List.mem_filter.mp hmem).1).symm

theorem sequenceValues?_dataEntries {values : List Value} :
    sequenceValues? t.dataEntries = some values ↔
      t.FillsPositions ∧ values = (Value.positions 1 t.dataEntries.length).map t.get := by
  rw [← entries_data, sequenceValues?_eq_some_iff, fillsPositions_iff_perm]
  constructor
  · rintro ⟨hnonempty, hbound, hperm, rfl⟩
    exact ⟨⟨hnonempty, hbound, hperm⟩,
      List.map_congr_left fun k hk => get_data (hperm.mem_iff.mpr hk)⟩
  · rintro ⟨⟨hnonempty, hbound, hperm⟩, rfl⟩
    exact ⟨hnonempty, hbound, hperm,
      List.map_congr_left fun k hk => (get_data (hperm.mem_iff.mpr hk)).symm⟩

/-! ## The order of insertion -/

theorem FillsPositions.perm (hfills : t.FillsPositions)
    (hperm : u.dataEntries.Perm t.dataEntries) : u.FillsPositions := by
  obtain ⟨hnonempty, hkeys⟩ := hfills
  rw [FillsPositions, hperm.length_eq]
  exact ⟨hnonempty, fun k => (hperm.map Prod.fst).mem_iff.trans (hkeys k)⟩

/-- Tables with the same data in another order have the same sequence. -/
theorem sequenceValues?_perm (hfills : t.FillsPositions)
    (hperm : u.dataEntries.Perm t.dataEntries) :
    sequenceValues? u.dataEntries = sequenceValues? t.dataEntries := by
  rw [sequenceValues?_dataEntries.mpr ⟨hfills, rfl⟩, sequenceValues?_dataEntries]
  refine ⟨hfills.perm hperm, ?_⟩
  rw [hperm.length_eq]
  refine List.map_congr_left fun k hk => ?_
  obtain ⟨-, -, hpositions⟩ := fillsPositions_iff_perm.mp hfills
  obtain ⟨⟨_, v⟩, hmem, rfl⟩ := List.mem_map.mp (hpositions.mem_iff.mpr hk)
  have hmem' : (_, v) ∈ u.dataEntries := hperm.mem_iff.mpr hmem
  exact (get_of_mem (List.mem_filter.mp hmem).1).trans
    (get_of_mem (List.mem_filter.mp hmem').1).symm

theorem toJsonOrdered_perm (hfills : t.FillsPositions)
    (hperm : u.dataEntries.Perm t.dataEntries) : u.toJsonOrdered h = t.toJsonOrdered h := by
  have hvalues := sequenceValues?_dataEntries.mpr ⟨hfills, rfl⟩
  have hvalues' := (sequenceValues?_perm hfills hperm).trans hvalues
  rw [toJsonOrdered, toJsonOrdered, toJsonWithin_sequence hvalues, toJsonWithin_sequence hvalues']

/-! ## Items and fields -/

/-- A value inside the table that is converted, with the fields of objects in order of insertion. -/
def innerToJson (h : Heap) (v : Value) : Except JsonFault Json :=
  valueToJson (fun ref => toJsonWithin h nestingLimit (h.table ref)) v

/-- The items are the conversions of the values of the keys 1, 2 and so on. -/
structure Items (convert : Value → Except JsonFault Json) (t : Table) (items : List Json) :
    Prop where
  length : items.length = t.dataEntries.length
  item : ∀ i item, items[i]? = some item →
    convert (t.get (.int (Int64.ofNat (i + 1)))) = .ok item

/-- There is a field for each entry of the data, in order of insertion. -/
def Fields (convert : Value → Except JsonFault Json) (t : Table) (fields : List (String × Json)) :
    Prop :=
  List.Forall₂ (fun e f => f.1 = e.1.text ∧ convert e.2 = .ok f.2) t.dataEntries fields

/-- There is one field for each text of a key, and it has the value of the last entry with that
text. -/
structure LastFields (convert : Value → Except JsonFault Json) (t : Table)
    (fields : List (String × Json)) : Prop where
  names : (fields.map Prod.fst).Nodup
  named : ∀ e ∈ t.dataEntries, e.1.text ∈ fields.map Prod.fst
  last : ∀ name j, (name, j) ∈ fields ↔
    ∃ e, (t.dataEntries.filter (·.1.text = name)).getLast? = some e ∧ convert e.2 = .ok j

theorem items_of_toJsonOrdered (hfills : t.FillsPositions) {j : Json}
    (hj : t.toJsonOrdered h = .ok j) :
    ∃ items, j = .arr items ∧ Items (innerToJson h) t items := by
  have hvalues := sequenceValues?_dataEntries.mpr ⟨hfills, rfl⟩
  rw [toJsonOrdered, toJsonWithin_sequence hvalues] at hj
  obtain ⟨items, hitems, hj⟩ := exists_of_bind_eq_ok hj
  cases hj
  have hall := forall₂_of_mapM_eq_ok hitems
  have hlength : items.length = t.dataEntries.length := by
    rw [← hall.length_eq, List.length_map, Value.length_positions]
  refine ⟨items, rfl, hlength, fun i item hitem => ?_⟩
  obtain ⟨hi, rfl⟩ := List.getElem?_eq_some_iff.mp hitem
  have hvalue := hall.get (by rw [hall.length_eq]; exact hi) hi
  simpa [innerToJson, Value.positions, Nat.add_comm] using hvalue

theorem fields_of_toJsonOrdered (hfills : ¬ t.FillsPositions) {j : Json}
    (hj : t.toJsonOrdered h = .ok j) :
    ∃ fields, j = .obj fields ∧ Fields (innerToJson h) t fields := by
  have hvalues : sequenceValues? t.dataEntries = none := by
    rw [Option.eq_none_iff_forall_ne_some]
    exact fun values hsome => hfills (sequenceValues?_dataEntries.mp hsome).1
  rw [toJsonOrdered, toJsonWithin_fields hvalues] at hj
  obtain ⟨fields, hfields, hj⟩ := exists_of_bind_eq_ok hj
  cases hj
  refine ⟨fields, rfl, (forall₂_of_mapM_eq_ok hfields).imp fun e f hf => ?_⟩
  obtain ⟨value, hvalue, hf⟩ := exists_of_bind_eq_ok hf
  cases hf
  exact ⟨rfl, hvalue⟩

/-- The keys decide what comes out, as long as the fields stay in order of insertion. -/
theorem toJsonOrdered_cases {j : Json} (hj : t.toJsonOrdered h = .ok j) :
    (t.FillsPositions ∧ ∃ items, j = .arr items ∧ Items (innerToJson h) t items) ∨
    (¬ t.FillsPositions ∧ ∃ fields, j = .obj fields ∧ Fields (innerToJson h) t fields) := by
  by_cases hfills : t.FillsPositions
  · exact .inl ⟨hfills, items_of_toJsonOrdered hfills hj⟩
  · exact .inr ⟨hfills, fields_of_toJsonOrdered hfills hj⟩

end Table

/-! ## Of several fields with one name the last -/

namespace Json

variable {name : String} {value : Json} {f : String × Json} {fields : List (String × Json)}

theorem mem_insertField_iff (hsorted : (fields.map Prod.fst).Pairwise (· < ·)) :
    f ∈ insertField name value fields ↔ f = (name, value) ∨ f.1 ≠ name ∧ f ∈ fields := by
  induction fields with
  | nil =>
      show f ∈ [(name, value)] ↔ _
      simp
  | cons e rest ih =>
      obtain ⟨hfirst, hrest⟩ := List.pairwise_cons.mp hsorted
      have hbehind : ∀ g ∈ rest, e.1 < g.1 := fun g hg => hfirst g.1 (List.mem_map_of_mem hg)
      rcases insertField_cons name value e rest with ⟨hlt, hinsert⟩ | ⟨heq, hinsert⟩ |
        ⟨hgt, hinsert⟩
      · have hother : f ∈ e :: rest → f.1 ≠ name := by
          intro hf
          rcases List.mem_cons.mp hf with rfl | hf
          · exact ne_of_gt hlt
          · exact ne_of_gt (hlt.trans (hbehind f hf))
        rw [hinsert, List.mem_cons, and_iff_right_of_imp hother]
      · have hother : f ∈ rest → f.1 ≠ name := fun hf => heq ▸ ne_of_gt (hbehind f hf)
        rw [hinsert, List.mem_cons]
        refine or_congr_right ⟨fun hf => ⟨hother hf, List.mem_cons_of_mem e hf⟩, ?_⟩
        rintro ⟨hne, hf⟩
        rcases List.mem_cons.mp hf with rfl | hf
        · exact absurd heq.symm hne
        · exact hf
      · rw [hinsert, List.mem_cons, ih hrest, List.mem_cons]
        constructor
        · rintro (rfl | hf | ⟨hne, hf⟩)
          · exact .inr ⟨ne_of_lt hgt, .inl rfl⟩
          · exact .inl hf
          · exact .inr ⟨hne, .inr hf⟩
        · rintro (hf | ⟨hne, hf | hf⟩)
          · exact .inr (.inl hf)
          · exact .inl hf
          · exact .inr (.inr ⟨hne, hf⟩)

theorem mem_sortFields_iff :
    (name, value) ∈ sortFields fields ↔
      (fields.filter (·.1 = name)).getLast? = some (name, value) := by
  induction fields using List.reverseRecOn with
  | nil => simp [sortFields]
  | append_singleton fields e ih =>
      have hstep : sortFields (fields ++ [e]) = insertField e.1 e.2 (sortFields fields) := by
        simp [sortFields]
      rw [hstep, mem_insertField_iff (sorted_sortFields fields), ih, List.filter_append]
      by_cases he : e.1 = name
      · subst he
        simp [eq_comm, Prod.ext_iff]
      · simp [he, Prod.ext_iff, Ne.symm he]

end Json

namespace Table

variable {h : Heap} {t u : Table} {convert : Value → Except JsonFault Json}

theorem Items.normalize {items : List Json} (hitems : Items convert t items) :
    Items (fun v => (convert v).map Json.normalize) t (items.map Json.normalize) where
  length := by rw [List.length_map, hitems.length]
  item i item hitem := by
    rw [List.getElem?_map] at hitem
    obtain ⟨ordered, hordered, rfl⟩ := Option.map_eq_some_iff.mp hitem
    show Except.map _ _ = _
    rw [hitems.item i ordered hordered]
    rfl

theorem Fields.normalize {fields : List (String × Json)} (hfields : Fields convert t fields) :
    Fields (fun v => (convert v).map Json.normalize) t
      (fields.map fun f => (f.1, f.2.normalize)) := by
  refine List.forall₂_map_right_iff.mpr (hfields.imp ?_)
  rintro e f ⟨hname, hvalue⟩
  refine ⟨hname, ?_⟩
  show Except.map _ _ = _
  rw [hvalue]
  rfl

theorem getLast?_rel {α β : Type} {R : α → β → Prop} {xs : List α} {ys : List β}
    (hR : List.Forall₂ R xs ys) : Option.Rel R xs.getLast? ys.getLast? := by
  induction hR with
  | nil => exact .none
  | cons hfirst _ ih =>
      rw [List.getLast?_cons, List.getLast?_cons]
      revert ih
      generalize List.getLast? _ = last
      generalize List.getLast? _ = last'
      rintro (hlast | _)
      · exact .some hlast
      · exact .some hfirst

theorem Fields.getLast?_filter_rel {fields : List (String × Json)}
    (hfields : Fields convert t fields) (name : String) :
    Option.Rel (fun e f => f.1 = e.1.text ∧ convert e.2 = .ok f.2)
      (t.dataEntries.filter (·.1.text = name)).getLast?
      (fields.filter (·.1 = name)).getLast? := by
  refine getLast?_rel (List.rel_filter (fun e f hef => ?_) hfields)
  simp [hef.1]

/-- The last entry with some text is the one that stays. -/
theorem Fields.mem_sortFields {fields : List (String × Json)} (hfields : Fields convert t fields)
    {name : String} {e : Value × Value}
    (he : (t.dataEntries.filter (·.1.text = name)).getLast? = some e) :
    ∃ j, convert e.2 = .ok j ∧ (name, j) ∈ Json.sortFields fields := by
  have hrel := hfields.getLast?_filter_rel name
  rw [he] at hrel
  cases hlast : (fields.filter (·.1 = name)).getLast? with
  | none =>
      rw [hlast] at hrel
      cases hrel
  | some f =>
      rw [hlast] at hrel
      cases hrel with
      | some hef =>
          have hname : f.1 = name := by
            simpa using (List.mem_filter.mp (List.mem_of_getLast? hlast)).2
          refine ⟨f.2, hef.2, Json.mem_sortFields_iff.mpr ?_⟩
          rw [hlast, ← hname]

theorem Fields.sortFields {fields : List (String × Json)} (hfields : Fields convert t fields) :
    LastFields convert t (Json.sortFields fields) where
  names := (Json.sorted_sortFields fields).imp fun hlt => ne_of_lt hlt
  named e he := by
    have hsome : (t.dataEntries.filter (·.1.text = e.1.text)).getLast? ≠ none :=
      mt List.getLast?_eq_none_iff.mp
        (List.ne_nil_of_mem (List.mem_filter.mpr ⟨he, decide_eq_true rfl⟩))
    obtain ⟨last, hlast⟩ := Option.ne_none_iff_exists'.mp hsome
    obtain ⟨j, -, hmem⟩ := hfields.mem_sortFields hlast
    exact List.mem_map_of_mem (f := Prod.fst) hmem
  last name j := by
    constructor
    · intro hmem
      have hrel := hfields.getLast?_filter_rel name
      rw [Json.mem_sortFields_iff.mp hmem] at hrel
      generalize (t.dataEntries.filter (·.1.text = name)).getLast? = found at hrel
      cases hrel with
      | some hef => exact ⟨_, rfl, hef.2⟩
    · rintro ⟨e, he, hvalue⟩
      obtain ⟨j', hvalue', hmem⟩ := hfields.mem_sortFields he
      cases hvalue.symm.trans hvalue'
      exact hmem

/-- **Arrays and objects.** A table that is converted, to JSON text or to a JSON value, becomes an
array if and only if it has data and the keys of its data are the integers from 1 to the number of
entries. The items are then the conversions of the values of these keys in their order, so that the
order in which the entries came in makes no difference. Any other table becomes an object. In text
it has a field for each entry of the data, in order of insertion, under the text of its key; as a
value it has a field for each text that occurs, with the conversion of the last entry of that
text. -/
theorem arrays_and_objects (h : Heap) (t : Table) :
    (∀ s, t.toJsonText h = .ok s →
      (s.toList.head? = some '[' ↔ t.FillsPositions) ∧
      (t.FillsPositions → ∃ items, s = (Json.arr items).text ∧ Items (innerToJson h) t items) ∧
      (¬ t.FillsPositions → ∃ fields, s = (Json.obj fields).text ∧
        Fields (innerToJson h) t fields)) ∧
    (∀ j, t.toJson h = .ok j →
      ((∃ items, j = .arr items) ↔ t.FillsPositions) ∧
      (t.FillsPositions → ∃ items, j = .arr items ∧
        Items (fun v => (innerToJson h v).map Json.normalize) t items) ∧
      (¬ t.FillsPositions → ∃ fields, j = .obj fields ∧
        LastFields (fun v => (innerToJson h v).map Json.normalize) t fields)) ∧
    (t.FillsPositions → ∀ u : Table, u.dataEntries.Perm t.dataEntries →
      u.toJson h = t.toJson h ∧ u.toJsonText h = t.toJsonText h) := by
  refine ⟨?_, ?_, ?_⟩
  · intro s hs
    obtain ⟨j, hj, rfl⟩ := exists_of_map_eq_ok hs
    rcases toJsonOrdered_cases hj with
      ⟨hfills, items, rfl, hitems⟩ | ⟨hfills, fields, rfl, hfields⟩
    · have hopens : (Json.arr items).text.toList.head? = some '[' := by simp [Json.text, Json.chars]
      exact ⟨iff_of_true hopens hfills, fun _ => ⟨items, rfl, hitems⟩,
        fun hnot => absurd hfills hnot⟩
    · have hopens : (Json.obj fields).text.toList.head? ≠ some '[' := by
        simp [Json.text, Json.chars]
      exact ⟨iff_of_false hopens hfills, fun hfills' => absurd hfills' hfills,
        fun _ => ⟨fields, rfl, hfields⟩⟩
  · intro j hj
    obtain ⟨ordered, hordered, rfl⟩ := exists_of_map_eq_ok hj
    rcases toJsonOrdered_cases hordered with
      ⟨hfills, items, rfl, hitems⟩ | ⟨hfills, fields, rfl, hfields⟩
    · rw [Json.normalize, Json.normalizeItems_eq_map]
      exact ⟨iff_of_true ⟨_, rfl⟩ hfills, fun _ => ⟨_, rfl, hitems.normalize⟩,
        fun hnot => absurd hfills hnot⟩
    · rw [Json.normalize, Json.normalizeFields_eq_map]
      exact ⟨iff_of_false (by simp) hfills, fun hfills' => absurd hfills' hfills,
        fun _ => ⟨_, rfl, hfields.normalize.sortFields⟩⟩
  · intro hfills u hperm
    have hsame : u.toJsonOrdered h = t.toJsonOrdered h := toJsonOrdered_perm hfills hperm
    rw [toJson, toJson, toJsonText, toJsonText, hsame]
    exact ⟨rfl, rfl⟩

/-- The positions from 1 to 3 out of order, with a callable among them. -/
def scattered : Table :=
  ofEntries [(.int 2, .str "b"), (.str "4", .host "print"), (.int 3, .nil), (.int 1, .bool true)]

/-- The same data in order. -/
def settled : Table := ofEntries [(.int 1, .bool true), (.int 2, .str "b"), (.int 3, .nil)]

/-- Two keys with the same text, and a callable in the place of the second position. -/
def colliding : Table :=
  ofEntries [(.int 1, .bool true), (.int 2, .host "print"), (.str "1", .bool false)]

theorem arrays_and_objects_samples :
    scattered.FillsPositions ∧ settled.dataEntries.Perm scattered.dataEntries ∧
    settled.toJson {} = scattered.toJson {} ∧
    (∃ items, scattered.toJson {} = .ok (.arr items) ∧
      Items (fun v => (innerToJson {} v).map Json.normalize) scattered items) ∧
    ¬ colliding.FillsPositions ∧
    (∃ fields, colliding.toJson {} = .ok (.obj fields) ∧
      LastFields (fun v => (innerToJson {} v).map Json.normalize) colliding fields) ∧
    ∃ fields, colliding.toJsonText {} = .ok (Json.obj fields).text ∧
      Fields (innerToJson {}) colliding fields := by
  have hfills : scattered.FillsPositions := fillsPositions_iff_perm.mpr (by decide)
  have hperm : settled.dataEntries.Perm scattered.dataEntries := by decide
  have hnot : ¬ colliding.FillsPositions := fun hfills =>
    absurd (fillsPositions_iff_perm.mp hfills).2.2 (by decide)
  have harr : scattered.toJson {} = .ok (.arr [.bool true, .str "b", .null]) := rfl
  have hobj : colliding.toJson {} = .ok (.obj [("1", .bool false)]) := rfl
  have htext : colliding.toJsonText {}
      = .ok (Json.obj [("1", .bool true), ("1", .bool false)]).text := rfl
  obtain ⟨-, hvalue, horder⟩ := arrays_and_objects {} scattered
  obtain ⟨htext', hvalue', -⟩ := arrays_and_objects {} colliding
  obtain ⟨items, hitems, hall⟩ := (hvalue _ harr).2.1 hfills
  obtain ⟨fields, hfields, hlast⟩ := (hvalue' _ hobj).2.2 hnot
  obtain ⟨written, hwritten, hkept⟩ := (htext' _ htext).2.2 hnot
  exact ⟨hfills, hperm, (horder hfills settled hperm).1, ⟨items, hitems ▸ harr, hall⟩, hnot,
    ⟨fields, hfields ▸ hobj, hlast⟩, written, hwritten ▸ htext, hkept⟩

end Table

end LuaBytecode
