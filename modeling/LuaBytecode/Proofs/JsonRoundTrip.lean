import Mathlib
import LuaBytecode.Proofs.Effects
import LuaBytecode.Proofs.Entries
import LuaBytecode.Proofs.FieldOrder

/-! # Tables through JSON and back

A table of data, converted to JSON and back, comes back with the same keys and the
same values, and tables in it come back in the same way. The two conversions go down
the nesting together: what the one writes at a level, the other reads with the same
number of levels to go. The way back puts the nested tables into a heap one after
another, so what is said of one of them has to last while the others are added.
-/

namespace LuaBytecode

/-! ## Data -/

/-- What JSON has a form for. A table is looked at by itself. -/
def Value.IsData : Value → Prop
  | .float f => f.isFinite = true
  | .closure _ | .host _ => False
  | _ => True

instance : DecidablePred Value.IsData
  | .float f => inferInstanceAs (Decidable (f.isFinite = true))
  | .closure _ | .host _ => isFalse id
  | .nil | .bool _ | .int _ | .str _ | .table _ => isTrue trivial

namespace Table

/-- All keys are texts. -/
def IsRecord (t : Table) : Prop := ∀ k ∈ t.keys, k.kind = .string

instance (t : Table) : Decidable t.IsRecord :=
  inferInstanceAs (Decidable (∀ k ∈ t.keys, k.kind = .string))

/-- The keys are the integers from 1 to some number, in any order. -/
def IsList (t : Table) : Prop :=
  ∃ n : Int64, 1 ≤ n ∧ ∀ k, k ∈ t.keys ↔ ∃ i : Int64, k = .int i ∧ 1 ≤ i ∧ i ≤ n

structure IsData (t : Table) : Prop where
  keys : t.IsRecord ∨ t.IsList
  values : ∀ e ∈ t.entries, e.2.IsData

/-- The second table is a value of the first. -/
def Holds (h : Heap) (t u : Table) : Prop :=
  ∃ k ref, (k, .table ref) ∈ t.entries ∧ u = h.table ref

/-- Tables nest at most `levels` deep below this one. -/
def NestsWithin (h : Heap) : (levels : Nat) → Table → Prop
  | 0, t => ∀ u, ¬ Holds h t u
  | levels + 1, t => ∀ u, Holds h t u → NestsWithin h levels u

end Table

/-- The order in which keys come back: integers by size, texts by their bytes. -/
def Value.Precedes : Value → Value → Prop
  | .int i, .int j => i < j
  | .str s, .str s' => Bytes.ofText s < Bytes.ofText s'
  | _, _ => False

/-- The second table, which lies in heap `h'`, is the first one of heap `h` with its keys
sorted: it has the same keys and under each of them the same value or, for a table, such a
table again. -/
inductive Table.Restored (h h' : Heap) : Table → Table → Prop
  | intro {t t' : Table}
      (keys : ∀ k, k ∈ t'.keys ↔ k ∈ t.keys)
      (sorted : t'.keys.Pairwise Value.Precedes)
      (scalars : ∀ k, (t.get k).table? = none → t'.get k = t.get k)
      (tables : ∀ k ref, t.get k = .table ref →
        ∃ ref' < h'.tables.size, t'.get k = .table ref')
      (nested : ∀ k ref ref', t.get k = .table ref → t'.get k = .table ref' →
        Restored h h' (h.table ref) (h'.table ref')) :
      Restored h h' t t'

/-! ## Heaps that grow -/

/-- Tables are only added, and all else stays. -/
structure Heap.Grows (h h' : Heap) : Prop where
  cells : h'.cells = h.cells
  closures : h'.closures = h.closures
  size : h.tables.size ≤ h'.tables.size
  table : ∀ ref < h.tables.size, h'.table ref = h.table ref

namespace Heap

theorem Grows.refl (h : Heap) : h.Grows h :=
  ⟨rfl, rfl, Nat.le_refl _, fun _ _ => rfl⟩

theorem Grows.trans {h₁ h₂ h₃ : Heap} (h : h₁.Grows h₂) (h' : h₂.Grows h₃) : h₁.Grows h₃ where
  cells := h'.cells.trans h.cells
  closures := h'.closures.trans h.closures
  size := h.size.trans h'.size
  table ref hlt := (h'.table ref (hlt.trans_le h.size)).trans (h.table ref hlt)

theorem grows_newTable (h : Heap) (t : Table) : h.Grows (h.newTable t).2 where
  cells := rfl
  closures := rfl
  size := by simp [newTable]
  table _ hlt := table_newTable_of_lt hlt t

theorem table_newTable_self (h : Heap) (t : Table) :
    (h.newTable t).2.table (h.newTable t).1 = t := by
  simp [newTable, table, Array.getD_eq_getD_getElem?]

end Heap

/-- From heap `h` the action succeeds and only adds tables, and `R` says what its result is
in the heap that it leaves. -/
def Loads {α : Type} (h : Heap) (x : EStateM JsonFault Heap α) (R : Heap → α → Prop) : Prop :=
  ∃ a h', x h = .ok a h' ∧ h.Grows h' ∧ R h' a

namespace Loads

variable {α β : Type} {h : Heap} {R : Heap → α → Prop} {S : Heap → β → Prop}

theorem pure {a : α} (ha : R h a) : Loads h (pure a) R :=
  ⟨a, h, rfl, .refl h, ha⟩

theorem bind {x : EStateM JsonFault Heap α} {f : α → EStateM JsonFault Heap β} (hx : Loads h x R)
    (hf : ∀ h' a, h.Grows h' → R h' a → Loads h' (f a) S) : Loads h (x >>= f) S := by
  obtain ⟨a, h₁, hok, hgrows, ha⟩ := hx
  obtain ⟨b, h₂, hok', hgrows', hb⟩ := hf h₁ a hgrows ha
  refine ⟨b, h₂, ?_, hgrows.trans hgrows', hb⟩
  show EStateM.bind x f h = _
  rw [EStateM.bind, hok]
  exact hok'

theorem map {x : EStateM JsonFault Heap α} {g : α → β} (hx : Loads h x R)
    (hg : ∀ h' a, R h' a → S h' (g a)) : Loads h (x >>= fun a => Pure.pure (g a)) S :=
  hx.bind fun h' a _ ha => .pure (hg h' a ha)

/-- What is said of a result has to last while the later ones are loaded. -/
theorem mapM {f : α → EStateM JsonFault Heap β} {R : α → Heap → β → Prop}
    (hlasts : ∀ x h h' b, h.Grows h' → R x h b → R x h' b) {xs : List α} {h : Heap}
    (hxs : ∀ x ∈ xs, ∀ h', h.Grows h' → Loads h' (f x) (R x)) :
    Loads h (xs.mapM f) fun h' bs => List.Forall₂ (fun x b => R x h' b) xs bs := by
  induction xs generalizing h with
  | nil => exact .pure .nil
  | cons x rest ih =>
      rw [List.mapM_cons]
      refine (hxs x List.mem_cons_self h (.refl h)).bind fun h₁ b hgrows hb => ?_
      have hrest : ∀ y ∈ rest, ∀ h', h₁.Grows h' → Loads h' (f y) (R y) :=
        fun y hy h' hgrows' => hxs y (List.mem_cons_of_mem x hy) h' (hgrows.trans hgrows')
      refine (ih hrest).bind fun h₂ bs hgrows' hbs => ?_
      exact .pure (.cons (hlasts x h₁ h₂ b hgrows' hb) hbs)

theorem allocate {t : Table} {R : Heap → Value → Prop}
    (hR : R (h.newTable t).2 (.table (h.newTable t).1)) : Loads h (Table.allocate t) R :=
  ⟨_, _, rfl, h.grows_newTable t, hR⟩

end Loads

/-! ## Restored tables -/

theorem Table.Restored.grow {h h₁ h₂ : Heap} (hgrows : h₁.Grows h₂) {t t' : Table}
    (hrestored : Restored h h₁ t t') : Restored h h₂ t t' := by
  induction hrestored with
  | intro keys sorted scalars tables nested ih =>
      refine .intro keys sorted scalars ?_ ?_
      · intro k ref hk
        obtain ⟨ref', hlt, hk'⟩ := tables k ref hk
        exact ⟨ref', hlt.trans_le hgrows.size, hk'⟩
      · intro k ref ref' hk hk'
        obtain ⟨place, hlt, hplace⟩ := tables k ref hk
        cases hplace.symm.trans hk'
        rw [hgrows.table _ hlt]
        exact ih k ref _ hk hk'

/-- What a value comes back as. -/
def Value.Restored (h h' : Heap) (v w : Value) : Prop :=
  (v.table? = none ∧ w = v) ∨
  ∃ ref ref', v = .table ref ∧ w = .table ref' ∧ ref' < h'.tables.size ∧
    Table.Restored h h' (h.table ref) (h'.table ref')

theorem Value.Restored.grow {h h₁ h₂ : Heap} (hgrows : h₁.Grows h₂) {v w : Value}
    (hrestored : Restored h h₁ v w) : Restored h h₂ v w := by
  rcases hrestored with hscalar | ⟨ref, ref', hv, hw, hlt, htable⟩
  · exact .inl hscalar
  · refine .inr ⟨ref, ref', hv, hw, hlt.trans_le hgrows.size, ?_⟩
    rw [hgrows.table _ hlt]
    exact htable.grow hgrows

namespace Table

variable {h h' : Heap} {t t' : Table}

theorem mem_keys_of_get_table {k : Value} {ref : TableRef} (hk : t.get k = .table ref) :
    k ∈ t.keys := by
  by_contra habsent
  rw [get_of_notMem habsent] at hk
  cases hk

theorem Restored.of_entries (hkeys : t'.keys.Perm t.keys)
    (hsorted : t'.keys.Pairwise Value.Precedes)
    (hvalues : ∀ e ∈ t'.entries, (t.get e.1).Restored h h' e.2) : Restored h h' t t' := by
  have hkey (k : Value) : k ∈ t'.keys ↔ k ∈ t.keys := hkeys.mem_iff
  have hvalue {k : Value} (hk : k ∈ t.keys) : (t.get k).Restored h h' (t'.get k) :=
    hvalues _ (mem_of_mem_keys ((hkey k).mpr hk))
  refine .intro hkey hsorted ?_ ?_ ?_
  · intro k hscalar
    by_cases hk : k ∈ t.keys
    · rcases hvalue hk with ⟨-, hsame⟩ | ⟨ref, ref', htable, -⟩
      · exact hsame
      · rw [htable] at hscalar
        cases hscalar
    · rw [get_of_notMem hk, get_of_notMem (mt (hkey k).mp hk)]
  · intro k ref hk
    rcases hvalue (mem_keys_of_get_table hk) with ⟨hscalar, -⟩ | ⟨_, ref', -, hk', hlt, -⟩
    · rw [hk] at hscalar
      cases hscalar
    · exact ⟨ref', hlt, hk'⟩
  · intro k ref ref' hk hk'
    rcases hvalue (mem_keys_of_get_table hk) with ⟨hscalar, -⟩ | ⟨_, _, hv, hw, -, hnested⟩
    · rw [hk] at hscalar
      cases hscalar
    · cases hk.symm.trans hv
      cases hk'.symm.trans hw
      exact hnested

/-! ## Reading -/

theorem intFromJson_toInt (i : Int64) : intFromJson i.toInt = .int i := by
  rw [intFromJson, if_pos ⟨i.minValue_le_toInt, i.toInt_le⟩, Int64.ofInt_toInt]

/-- The table of a JSON value; `levels` arrays and objects may be opened inside it. -/
def fromJsonWithin (levels : Nat) : Json → EStateM JsonFault Heap Table
  | .arr items => do
    return ofValues (← items.mapM (valueFromJson levels))
  | .obj fields => do
    return ofEntries (← fields.mapM fun e => do
      let v ← valueFromJson levels e.2
      return (Value.str e.1, v))
  | other => fromJson other

theorem fromJson_eq_within (j : Json) : fromJson j = fromJsonWithin nestingLimit j := by
  cases j <;> rfl

end Table

def Json.IsContainer : Json → Prop
  | .arr _ | .obj _ => True
  | _ => False

theorem Json.IsContainer.normalize {j : Json} (hj : j.IsContainer) :
    j.normalize.IsContainer := by
  cases j with
  | arr items => trivial
  | obj fields => trivial
  | _ => cases hj

theorem Table.valueFromJson_container {j : Json} (hj : j.IsContainer) (levels : Nat) :
    valueFromJson (levels + 1) j = fromJsonWithin levels j >>= allocate := by
  cases j with
  | arr items => simp [valueFromJson, fromJsonWithin]
  | obj fields => simp [valueFromJson, fromJsonWithin]
  | _ => cases hj

/-! ## Writing -/

theorem Value.IsData.not_isCallable {v : Value} (hv : v.IsData) : v.isCallable = false := by
  cases v with
  | closure ref => cases hv
  | host name => cases hv
  | _ => rfl

namespace Table

variable {h : Heap} {t : Table} {levels : Nat}

theorem dataEntries_eq_of_forall (hentries : ∀ e ∈ t.entries, e.2.isCallable = false) :
    t.dataEntries = t.entries := by
  refine List.filter_eq_self.mpr fun e he => ?_
  rw [hentries e he]
  rfl

theorem IsData.dataEntries_eq (hdata : t.IsData) : t.dataEntries = t.entries :=
  dataEntries_eq_of_forall fun e he => (hdata.values e he).not_isCallable

theorem toJsonWithin_sequence {values : List Value}
    (hvalues : sequenceValues? t.dataEntries = some values) :
    toJsonWithin h (levels + 1) t
      = (values.mapM (valueToJson fun ref => toJsonWithin h levels (h.table ref)) >>=
          fun items => pure (.arr items)) := by
  rw [toJsonWithin, hvalues]

theorem toJsonWithin_fields (hvalues : sequenceValues? t.dataEntries = none) :
    toJsonWithin h (levels + 1) t
      = ((t.dataEntries.mapM fun e => do
            let value ← valueToJson (fun ref => toJsonWithin h levels (h.table ref)) e.2
            return (e.1.text, value)) >>=
          fun fields => pure (.obj fields)) := by
  rw [toJsonWithin, hvalues]

end Table

/-! ## Both ways -/

/-- The value is written with `levels` levels for tables, and comes back when it is read
with as many. -/
def Value.Carried (h : Heap) (levels : Nat) (v : Value) : Prop :=
  ∃ j, Table.valueToJson (fun ref => Table.toJsonWithin h levels (h.table ref)) v = .ok j ∧
    ∀ h₀, Loads h₀ (Table.valueFromJson levels j.normalize) fun h' w => v.Restored h h' w

def Table.Carried (h : Heap) (levels : Nat) (t : Table) : Prop :=
  ∃ j, toJsonWithin h (levels + 1) t = .ok j ∧ j.IsContainer ∧
    ∀ h₀, Loads h₀ (fromJsonWithin levels j.normalize) fun h' t' => t.Restored h h' t'

namespace Value

variable {h : Heap} {levels : Nat}

theorem Carried.of_scalar {v : Value} {j : Json} (hv : v.table? = none)
    (hto : Table.valueToJson (fun ref => Table.toJsonWithin h levels (h.table ref)) v = .ok j)
    (hfrom : Table.valueFromJson levels j.normalize = pure v) : v.Carried h levels := by
  refine ⟨j, hto, fun h₀ => ?_⟩
  rw [hfrom]
  exact .pure (.inl ⟨hv, rfl⟩)

theorem IsData.carried {v : Value} (hdata : v.IsData) (hv : v.table? = none) :
    v.Carried h levels := by
  cases v with
  | nil => exact .of_scalar hv rfl (by simp [Json.normalize, Table.valueFromJson])
  | bool b => exact .of_scalar hv rfl (by simp [Json.normalize, Table.valueFromJson])
  | int i =>
      refine .of_scalar hv rfl ?_
      simp [Json.normalize, Table.valueFromJson, Table.intFromJson_toInt]
  | float f =>
      have hto : Table.valueToJson (fun ref => Table.toJsonWithin h levels (h.table ref))
          (.float f) = .ok (.float f) := congrArg Except.ok (if_pos hdata)
      exact .of_scalar hv hto (by simp [Json.normalize, Table.valueFromJson])
  | str s => exact .of_scalar hv rfl (by simp [Json.normalize, Table.valueFromJson])
  | table ref => cases hv
  | closure ref => cases hdata
  | host name => cases hdata

/-- A table inside another takes one level. -/
theorem carried_table {ref : TableRef} (htable : (h.table ref).Carried h levels) :
    (Value.table ref).Carried h (levels + 1) := by
  obtain ⟨j, hto, hcontainer, hfrom⟩ := htable
  refine ⟨j, hto, fun h₀ => ?_⟩
  rw [Table.valueFromJson_container hcontainer.normalize]
  refine (hfrom h₀).bind fun h' t' _ ht' => .allocate (.inr ⟨ref, _, rfl, rfl, ?_, ?_⟩)
  · simp [Heap.newTable]
  · rw [h'.table_newTable_self]
    exact ht'.grow (h'.grows_newTable t')

end Value

namespace Table

variable {h : Heap} {t : Table} {levels : Nat}

/-! ## Lists -/

theorem IsList.keys_perm (hlist : t.IsList) :
    ∃ count, count ≠ 0 ∧ 1 + count ≤ 2 ^ 63 ∧ t.keys.Perm (Value.positions 1 count) := by
  obtain ⟨n, hn, hmem⟩ := hlist
  have hone : (1 : Int64).toInt ≤ n.toInt := Int64.le_iff_toInt_le.mp hn
  have hmax : n.toInt < 2 ^ 63 := n.toInt_lt
  rw [show (1 : Int64).toInt = 1 from rfl] at hone
  have hbound : 1 + n.toInt.toNat ≤ 2 ^ 63 := by omega
  refine ⟨n.toInt.toNat, by omega, hbound, ?_⟩
  refine (List.perm_ext_iff_of_nodup t.keys_nodup (Value.nodup_positions hbound)).mpr ?_
  intro k
  rw [Value.mem_positions_iff]
  exact hmem k

/-- An array whose items stand for the values of the positions is read as the table. -/
theorem loads_items {count : Nat} (hbound : 1 + count ≤ 2 ^ 63)
    (hkeys : t.keys.Perm (Value.positions 1 count)) {item : Value → Json}
    (hitems : ∀ k ∈ t.keys, ∀ h₀, Loads h₀ (valueFromJson levels (item k))
      fun h' w => (t.get k).Restored h h' w) (h₀ : Heap) :
    Loads h₀ (fromJsonWithin levels (.arr ((Value.positions 1 count).map item)))
      fun h' t' => t.Restored h h' t' := by
  rw [fromJsonWithin, List.mapM_map]
  have hloads := Loads.mapM (R := fun k h' w => (t.get k).Restored h h' w)
    (fun _ _ _ _ hgrows hw => hw.grow hgrows) (h := h₀)
    fun k hk h' _ => hitems k (hkeys.mem_iff.mpr hk) h'
  refine hloads.map fun h' values hvalues => ?_
  have hlength : values.length = count := by
    rw [← hvalues.length_eq, Value.length_positions]
  have hentries : (ofValues values).entries = (Value.positions 1 count).zip values := by
    rw [entries_ofValues (by omega), hlength]
  have hsame : (ofValues values).keys = Value.positions 1 count := by
    rw [keys, hentries, List.map_fst_zip (by simp [hlength])]
  refine .of_entries ?_ ?_ ?_
  · rw [hsame]
    exact hkeys.symm
  · rw [hsame]
    exact Value.pairwise_positions hbound fun _ _ hlt => hlt
  · rw [hentries]
    rintro ⟨k, w⟩ he
    exact List.forall₂_zip hvalues he

theorem IsList.carried (hlist : t.IsList) (hdata : t.dataEntries = t.entries)
    (hvalues : ∀ k ∈ t.keys, (t.get k).Carried h levels) : t.Carried h levels := by
  obtain ⟨count, hpositive, hbound, hkeys⟩ := hlist.keys_perm
  choose! json hto hfrom using hvalues
  have hitems : ((Value.positions 1 count).map t.get).mapM
        (valueToJson fun ref => toJsonWithin h levels (h.table ref))
      = .ok ((Value.positions 1 count).map json) := by
    rw [List.mapM_map]
    exact mapM_eq_pure_map fun k hk => hto k (hkeys.mem_iff.mpr hk)
  have hwritten : toJsonWithin h (levels + 1) t
      = .ok (.arr ((Value.positions 1 count).map json)) := by
    have hsize : t.size = count := by
      simpa [keys, size] using hkeys.length_eq
    subst hsize
    have hvalues := sequenceValues?_eq_some_iff.mpr ⟨hpositive, hbound, hkeys, rfl⟩
    rw [toJsonWithin_sequence (hdata ▸ hvalues), hitems]
    rfl
  refine ⟨_, hwritten, trivial, fun h₀ => ?_⟩
  rw [Json.normalize, Json.normalizeItems_eq_map, List.map_map]
  exact loads_items hbound hkeys hfrom h₀

/-! ## Records -/

theorem forall₂_entries {α : Type} {key : α → Value} {P : Value × Value → Prop} {xs : List α}
    {es : List (Value × Value)} (hes : List.Forall₂ (fun x e => e.1 = key x ∧ P e) xs es) :
    es.map Prod.fst = xs.map key ∧ ∀ e ∈ es, P e := by
  induction hes with
  | nil => exact ⟨rfl, nofun⟩
  | cons he _ ih =>
      obtain ⟨hkeys, hvalues⟩ := ih
      exact ⟨by rw [List.map_cons, he.1, hkeys, List.map_cons],
        List.forall_mem_cons.mpr ⟨he.2, hvalues⟩⟩

/-- An object whose fields are sorted and stand for the values of the keys is read as the
table. -/
theorem loads_fields {fields : List (String × Json)}
    (hkeys : (fields.map fun f => Value.str f.1).Perm t.keys)
    (hsorted : (fields.map Prod.fst).Pairwise (· < ·))
    (hfields : ∀ f ∈ fields, ∀ h₀, Loads h₀ (valueFromJson levels f.2)
      fun h' w => (t.get (.str f.1)).Restored h h' w) (h₀ : Heap) :
    Loads h₀ (fromJsonWithin levels (.obj fields)) fun h' t' => t.Restored h h' t' := by
  rw [fromJsonWithin]
  have hentry : ∀ f ∈ fields, ∀ h₀, Loads h₀ (do
        let v ← valueFromJson levels f.2
        return (Value.str f.1, v))
      fun h' e => e.1 = .str f.1 ∧ (t.get e.1).Restored h h' e.2 :=
    fun f hf h₀ => (hfields f hf h₀).map fun _ _ hw => ⟨rfl, hw⟩
  have hloads := Loads.mapM (fun _ _ _ _ hgrows he => ⟨he.1, he.2.grow hgrows⟩) (h := h₀)
    fun f hf h' _ => hentry f hf h'
  refine hloads.map fun h' es hes => ?_
  obtain ⟨hnames, hvalues⟩ := forall₂_entries hes
  have hentries : (ofEntries es).entries = es := by
    refine entries_ofEntries ?_ ?_
    · rw [hnames, hkeys.nodup_iff]
      exact t.keys_nodup
    · rw [hnames, hkeys.mem_iff]
      exact t.nil_notMem
  have hsame : (ofEntries es).keys = fields.map fun f => Value.str f.1 := by
    rw [keys, hentries, hnames]
  refine .of_entries ?_ ?_ ?_
  · rwa [hsame]
  · rw [hsame, List.pairwise_map]
    exact (List.pairwise_map.mp hsorted).imp fun hlt => Bytes.ofText_lt hlt
  · rwa [hentries]

/-- The names of a record are its keys. -/
theorem IsRecord.str_text (hrecord : t.IsRecord) {k : Value} (hk : k ∈ t.keys) :
    .str k.text = k := by
  have hkind := hrecord k hk
  cases k with
  | str s => rfl
  | _ => cases hkind

theorem IsRecord.carried (hrecord : t.IsRecord) (hdata : t.dataEntries = t.entries)
    (hvalues : ∀ k ∈ t.keys, (t.get k).Carried h levels) : t.Carried h levels := by
  choose! json hto hfrom using hvalues
  have hmem {e : Value × Value} (he : e ∈ t.entries) : e.1 ∈ t.keys := List.mem_map_of_mem he
  have hfields : (t.entries.mapM fun e => do
        let value ← valueToJson (fun ref => toJsonWithin h levels (h.table ref)) e.2
        return (e.1.text, value))
      = Except.ok (t.entries.map fun e => (e.1.text, json e.1)) := by
    refine mapM_eq_pure_map fun e he => ?_
    have hvalue := hto e.1 (hmem he)
    rw [get_of_mem he] at hvalue
    rw [hvalue]
    rfl
  have hwritten : toJsonWithin h (levels + 1) t
      = .ok (.obj (t.entries.map fun e => (e.1.text, json e.1))) := by
    rw [toJsonWithin_fields (hdata ▸ sequenceValues?_of_texts hrecord), hdata, hfields]
    rfl
  refine ⟨_, hwritten, trivial, fun h₀ => ?_⟩
  rw [Json.normalize, Json.normalizeFields_eq_map, List.map_map]
  generalize hunsorted : t.entries.map _ = unsorted
  have hkeys : (unsorted.map fun f => Value.str f.1) = t.keys := by
    rw [← hunsorted, List.map_map]
    exact List.map_congr_left fun e he => hrecord.str_text (hmem he)
  have hperm : (Json.sortFields unsorted).Perm unsorted := by
    refine Json.sortFields_perm (List.Nodup.of_map Value.str ?_)
    rw [List.map_map]
    exact hkeys ▸ t.keys_nodup
  refine loads_fields (hkeys ▸ hperm.map _) (Json.sorted_sortFields unsorted) ?_ h₀
  intro f hf
  have hf' : f ∈ unsorted := hperm.mem_iff.mp hf
  rw [← hunsorted] at hf'
  obtain ⟨e, he, rfl⟩ := List.mem_map.mp hf'
  show ∀ h₀, Loads h₀ (valueFromJson levels (json e.1).normalize)
    fun h' w => (t.get (.str e.1.text)).Restored h h' w
  rw [hrecord.str_text (hmem he)]
  exact hfrom e.1 (hmem he)

/-! ## Nesting -/

theorem table?_eq_some_iff {v : Value} {ref : TableRef} :
    v.table? = some ref ↔ v = .table ref := by
  cases v <;> simp [Value.table?]

theorem IsData.carried (hdata : t.IsData)
    (htables : ∀ k ref, t.get k = .table ref → (Value.table ref).Carried h levels) :
    t.Carried h levels := by
  have hvalues : ∀ k ∈ t.keys, (t.get k).Carried h levels := by
    intro k hk
    cases hv : (t.get k).table? with
    | none => exact (hdata.values _ (mem_of_mem_keys hk)).carried hv
    | some ref =>
        have htable : t.get k = .table ref := table?_eq_some_iff.mp hv
        rw [htable]
        exact htables k ref htable
  rcases hdata.keys with hrecord | hlist
  · exact hrecord.carried hdata.dataEntries_eq hvalues
  · exact hlist.carried hdata.dataEntries_eq hvalues

theorem holds_of_get {k : Value} {ref : TableRef} (hk : t.get k = .table ref) :
    Holds h t (h.table ref) := by
  refine ⟨k, ref, ?_, rfl⟩
  rw [← hk]
  exact mem_of_mem_keys (mem_keys_of_get_table hk)

/-- Data is carried over with as many levels as it nests. -/
theorem carried_of_nestsWithin (hdata : ∀ u, Relation.ReflTransGen (Holds h) t u → u.IsData)
    (hnests : NestsWithin h levels t) : t.Carried h levels := by
  induction levels generalizing t with
  | zero =>
      refine (hdata t .refl).carried ?_
      intro k ref hk
      exact absurd (holds_of_get hk) (hnests _)
  | succ levels ih =>
      refine (hdata t .refl).carried ?_
      intro k ref hk
      have hholds : Holds h t (h.table ref) := holds_of_get hk
      refine Value.carried_table (ih ?_ (hnests _ hholds))
      intro u hu
      exact hdata u (.head hholds hu)

/-- **Data comes back from JSON.** Let every table that can be reached from a table through
values have texts or the integers from 1 on as its keys, and values that JSON has a form
for, and let tables nest at most 128 deep. Then the table is converted to JSON, and the
JSON is converted back, in any heap, to a table with the same keys and values. -/
theorem fromJson_toJson (hdata : ∀ u, Relation.ReflTransGen (Holds h) t u → u.IsData)
    (hnests : NestsWithin h 128 t) :
    ∃ j, t.toJson h = .ok j ∧ ∀ h₀, ∃ t' h₁, fromJson j h₀ = .ok t' h₁ ∧
      h₀.Grows h₁ ∧ t.Restored h h₁ t' := by
  obtain ⟨j, hto, -, hfrom⟩ := carried_of_nestsWithin hdata hnests
  refine ⟨j.normalize, ?_, fun h₀ => ?_⟩
  · rw [toJson, toJsonOrdered, nestingLimit, hto]
    rfl
  · rw [fromJson_eq_within]
    exact hfrom h₀

/-- The tables in a table, as they can be listed. -/
theorem holds_iff {u : Table} :
    Holds h t u ↔ ∃ ref ∈ t.entries.filterMap fun e => e.2.table?, u = h.table ref := by
  constructor
  · rintro ⟨k, ref, hmem, rfl⟩
    exact ⟨ref, List.mem_filterMap.mpr ⟨_, hmem, rfl⟩, rfl⟩
  · rintro ⟨ref, href, rfl⟩
    obtain ⟨⟨k, v⟩, hmem, hv⟩ := List.mem_filterMap.mp href
    exact ⟨k, ref, table?_eq_some_iff.mp hv ▸ hmem, rfl⟩

/-- A record with a key that looks like a number, a nil value and a list. -/
def specimen : Table :=
  ofEntries [(.str "b", .table 0), (.str "10", .float ⟨0x3FE0000000000000⟩), (.str "a", .nil)]

/-- A list whose keys came in out of order, and the empty table in it. -/
def specimenHeap : Heap where
  tables := #[ofEntries [(.int 2, .table 1), (.int 1, .int 7)], empty]

theorem fromJson_toJson_specimen :
    (∀ u, Relation.ReflTransGen (Holds specimenHeap) specimen u → u.IsData) ∧
    NestsWithin specimenHeap 128 specimen ∧
    ∃ j t' h₁, specimen.toJson specimenHeap = .ok j ∧ fromJson j {} = .ok t' h₁ ∧
      specimen.Restored specimenHeap h₁ t' := by
  have hspecimen {u : Table} : Holds specimenHeap specimen u ↔ u = specimenHeap.table 0 := by
    rw [holds_iff, show specimen.entries.filterMap (fun e => e.2.table?) = [0] by decide]
    simp
  have hlist {u : Table} : Holds specimenHeap (specimenHeap.table 0) u
      ↔ u = specimenHeap.table 1 := by
    rw [holds_iff, show (specimenHeap.table 0).entries.filterMap (fun e => e.2.table?) = [1] by
      decide]
    simp
  have hempty {u : Table} : ¬ Holds specimenHeap (specimenHeap.table 1) u := by
    rw [holds_iff, show (specimenHeap.table 1).entries.filterMap (fun e => e.2.table?) = [] by
      decide]
    simp
  have hreached : ∀ u, Relation.ReflTransGen (Holds specimenHeap) specimen u →
      u = specimen ∨ u = specimenHeap.table 0 ∨ u = specimenHeap.table 1 := by
    intro u hu
    induction hu with
    | refl => exact .inl rfl
    | tail _ hholds ih =>
        rcases ih with rfl | rfl | rfl
        · exact .inr (.inl (hspecimen.mp hholds))
        · exact .inr (.inr (hlist.mp hholds))
        · exact absurd hholds hempty
  have hpositions : (specimenHeap.table 0).IsList := by
    refine ⟨2, by decide, fun k => ?_⟩
    rw [← Value.mem_positions_iff]
    exact List.Perm.mem_iff (by decide)
  have hdata : ∀ u, Relation.ReflTransGen (Holds specimenHeap) specimen u → u.IsData := by
    intro u hu
    rcases hreached u hu with rfl | rfl | rfl
    · exact ⟨.inl (by decide), by decide⟩
    · exact ⟨.inr hpositions, by decide⟩
    · exact ⟨.inl (by decide), by decide⟩
  have hnests : NestsWithin specimenHeap 128 specimen := by
    intro u hu
    rw [hspecimen.mp hu]
    intro w hw
    rw [hlist.mp hw]
    intro x hx
    exact absurd hx hempty
  obtain ⟨j, hto, hfrom⟩ := fromJson_toJson hdata hnests
  obtain ⟨t', h₁, hback, -, hrestored⟩ := hfrom {}
  exact ⟨hdata, hnests, j, t', h₁, hto, hback, hrestored⟩

end Table

end LuaBytecode
