import Mathlib
import LuaBytecode.Proofs.Entries

/-! # Tables over whole histories

A table is what the edits made of it, one after another from the empty table on.
What counts for a key are the edits that set it after it was last removed: the
first of them gives the key its place in the order, and the last one its value. So
setting a key again does not move it, and removing it first does.
-/

namespace LuaBytecode

namespace Table

/-- One change to a table. -/
inductive Edit where
  | set (key value : Value)
  | remove (key : Value)
  deriving DecidableEq, Repr

def Edit.key : Edit → Value
  | .set k _ => k
  | .remove k => k

/-- Edits in the order in which they were made. -/
abbrev History := List Edit

/-- Make an edit. Setting a nil key is refused, and the table stays as it is. -/
def edit (t : Table) : Edit → Table
  | .set k v => (t.set? k v).getD t
  | .remove k => (t.remove k).2

/-- The table that a history makes of the empty one. -/
def replay (h : History) : Table := h.foldl edit empty

theorem replay_concat (h : History) (e : Edit) : replay (h ++ [e]) = (replay h).edit e := by
  unfold replay
  rw [List.foldl_append]
  rfl

/-! ## What a history says of a key -/

namespace History

/-- The edits, by their numbers, that set a key after it was last removed. A nil key
cannot be set. -/
def live (h : History) (k : Value) : Set Nat :=
  {i | k ≠ .nil ∧ (∃ v, h[i]? = some (.set k v)) ∧ ∀ j, i < j → h[j]? ≠ some (.remove k)}

/-- The key was set after it was last removed, and the latest value it was given is
`v`. -/
def Stores (h : History) (k v : Value) : Prop :=
  ∃ i, IsGreatest (live h k) i ∧ h[i]? = some (.set k v)

/-- Both keys were set after they were last removed, and this happened to `k` first. -/
def Precedes (h : History) (k k' : Value) : Prop :=
  ∃ i j, IsLeast (live h k) i ∧ IsLeast (live h k') j ∧ i < j

variable {h : History} {e : Edit} {k k' v w : Value} {i : Nat}

theorem lt_length_of_mem_live (hi : i ∈ live h k) : i < h.length := by
  obtain ⟨-, ⟨v, hset⟩, -⟩ := hi
  exact (List.getElem?_eq_some_iff.mp hset).1

theorem live_nil (h : History) : live h .nil = ∅ := by
  ext i
  simp [live]

/-- An edit of another key changes nothing for this one. -/
theorem live_concat_of_ne (hne : e.key ≠ k) : live (h ++ [e]) k = live h k := by
  have hset (i : Nat) (v : Value) : (h ++ [e])[i]? = some (.set k v) ↔ h[i]? = some (.set k v) := by
    grind [Edit.key]
  have hremove (i : Nat) : (h ++ [e])[i]? = some (.remove k) ↔ h[i]? = some (.remove k) := by
    grind [Edit.key]
  ext i
  simp only [live, hset, ne_eq, hremove]

/-- A removal undoes all that was set. -/
theorem live_concat_remove (h : History) (k : Value) : live (h ++ [Edit.remove k]) k = ∅ := by
  ext i
  simp only [Set.mem_empty_iff_false, iff_false]
  intro hi
  have hlt := lt_length_of_mem_live hi
  obtain ⟨-, ⟨v, hset⟩, hkept⟩ := hi
  have hle : i ≠ h.length := by
    rintro rfl
    simp at hset
  refine hkept h.length ?_ (by simp)
  rw [List.length_append, List.length_singleton] at hlt
  omega

theorem live_concat_set (h : History) (hk : k ≠ .nil) (v : Value) :
    live (h ++ [Edit.set k v]) k = live h k ∪ {h.length} := by
  ext i
  rw [Set.mem_union, Set.mem_singleton_iff]
  constructor
  · rintro ⟨-, ⟨w, hset⟩, hkept⟩
    by_cases hi : i = h.length
    · exact Or.inr hi
    · left
      refine ⟨hk, ⟨w, ?_⟩, ?_⟩
      · grind
      · intro j hj hremove
        refine hkept j hj ?_
        grind
  · rintro (⟨-, ⟨w, hset⟩, hkept⟩ | rfl)
    · refine ⟨hk, ⟨w, ?_⟩, ?_⟩
      · grind
      · intro j hj
        have hkept' := hkept j hj
        grind
    · refine ⟨hk, ⟨v, by simp⟩, ?_⟩
      intro j hj
      rw [List.getElem?_eq_none (by simpa using hj)]
      exact nofun

theorem live_concat_set_nil (h : History) (v k : Value) :
    live (h ++ [Edit.set .nil v]) k = live h k := by
  by_cases hk : k = .nil
  · rw [hk, live_nil, live_nil]
  · exact live_concat_of_ne (Ne.symm hk)

/-! ### The first and the last of these edits -/

theorem exists_isLeast (hlive : (live h k).Nonempty) : ∃ i, IsLeast (live h k) i :=
  ⟨_, Nat.sInf_mem hlive, fun _ hj => Nat.sInf_le hj⟩

theorem exists_isGreatest (hlive : (live h k).Nonempty) : ∃ i, IsGreatest (live h k) i := by
  have hbound : BddAbove (live h k) := ⟨h.length, fun _ hi => (lt_length_of_mem_live hi).le⟩
  exact ⟨_, Nat.sSup_mem hlive hbound, fun _ hj => le_csSup hbound hj⟩

theorem exists_stores_iff : (∃ v, Stores h k v) ↔ (live h k).Nonempty := by
  constructor
  · rintro ⟨v, i, hi, -⟩
    exact ⟨i, hi.1⟩
  · intro hlive
    obtain ⟨i, hi⟩ := exists_isGreatest hlive
    obtain ⟨-, ⟨v, hset⟩, -⟩ := hi.1
    exact ⟨v, i, hi, hset⟩

theorem isLeast_concat_set (hk : k ≠ .nil) (hlive : (live h k).Nonempty) (v : Value) :
    IsLeast (live (h ++ [Edit.set k v]) k) i ↔ IsLeast (live h k) i := by
  rw [live_concat_set h hk]
  obtain ⟨j, hj⟩ := hlive
  have hlt := lt_length_of_mem_live hj
  constructor
  · rintro ⟨hi | rfl, hleast⟩
    · exact ⟨hi, fun l hl => hleast (Or.inl hl)⟩
    · exact absurd (hleast (Or.inl hj)) (Nat.not_le.mpr hlt)
  · rintro ⟨hi, hleast⟩
    refine ⟨Or.inl hi, ?_⟩
    rintro l (hl | rfl)
    · exact hleast hl
    · exact (lt_length_of_mem_live hi).le

theorem isLeast_concat_set_new (hk : k ≠ .nil) (hlive : live h k = ∅) (v : Value) :
    IsLeast (live (h ++ [Edit.set k v]) k) h.length := by
  rw [live_concat_set h hk, hlive, Set.empty_union]
  exact isLeast_singleton

theorem isGreatest_concat_set (h : History) (hk : k ≠ .nil) (v : Value) :
    IsGreatest (live (h ++ [Edit.set k v]) k) h.length := by
  rw [live_concat_set h hk]
  refine ⟨Or.inr rfl, ?_⟩
  rintro l (hl | rfl)
  · exact (lt_length_of_mem_live hl).le
  · exact Nat.le_refl _

/-! ### One more edit -/

theorem stores_concat_of_live_eq (hlive : live (h ++ [e]) k = live h k) :
    Stores (h ++ [e]) k v ↔ Stores h k v := by
  unfold Stores
  rw [hlive]
  refine exists_congr fun i => and_congr_right fun hi => ?_
  rw [List.getElem?_append_left (lt_length_of_mem_live hi.1)]

/-- The latest set gives the value. -/
theorem stores_concat_set (h : History) (hk : k ≠ .nil) :
    Stores (h ++ [Edit.set k v]) k w ↔ w = v := by
  constructor
  · rintro ⟨i, hi, hset⟩
    rw [hi.unique (isGreatest_concat_set h hk v)] at hset
    simpa [eq_comm] using hset
  · rintro rfl
    exact ⟨h.length, isGreatest_concat_set h hk w, by simp⟩

theorem not_stores_concat_remove (h : History) (k v : Value) :
    ¬ Stores (h ++ [Edit.remove k]) k v := by
  rintro ⟨i, hi, -⟩
  rw [live_concat_remove] at hi
  exact hi.1

theorem Precedes.concat (hprecedes : Precedes h k k')
    (hk : ∀ i, IsLeast (live h k) i → IsLeast (live (h ++ [e]) k) i)
    (hk' : ∀ i, IsLeast (live h k') i → IsLeast (live (h ++ [e]) k') i) :
    Precedes (h ++ [e]) k k' := by
  obtain ⟨i, j, hi, hj, hlt⟩ := hprecedes
  exact ⟨i, j, hk i hi, hk' j hj, hlt⟩

end History

/-! ## What a table records of its history -/

theorem mem_insertEntry {k v : Value} {es : List (Value × Value)}
    (hnodup : (es.map Prod.fst).Nodup) (e : Value × Value) :
    e ∈ insertEntry k v es ↔ e = (k, v) ∨ e ∈ es ∧ e.1 ≠ k := by
  induction es with
  | nil => simp [insertEntry]
  | cons first rest ih =>
      rw [List.map_cons, List.nodup_cons] at hnodup
      obtain ⟨hnotMem, hrest⟩ := hnodup
      have hother (he : e ∈ rest) : e.1 ≠ first.1 := by
        intro heq
        exact hnotMem (heq ▸ List.mem_map_of_mem he)
      by_cases hk : first.1 = k
      · rw [insertEntry, if_pos hk]
        grind
      · rw [insertEntry, if_neg hk]
        grind

open History in
/-- The entries of the table are those that the history stores, in the order in which
their keys came in. -/
structure Records (t : Table) (h : History) : Prop where
  entries : ∀ k v, (k, v) ∈ t.entries ↔ Stores h k v
  order : t.keys.Pairwise (Precedes h)

namespace Records

open History

variable {t : Table} {h : History} {k v : Value}

theorem mem_keys_iff (ht : t.Records h) : k ∈ t.keys ↔ (live h k).Nonempty := by
  rw [← exists_stores_iff]
  constructor
  · intro hk
    exact ⟨t.get k, (ht.entries k _).mp (mem_of_mem_keys hk)⟩
  · rintro ⟨v, hv⟩
    exact List.mem_map_of_mem ((ht.entries k v).mpr hv)

theorem start : empty.Records [] where
  entries k v := by simp [empty, Stores, live]
  order := List.Pairwise.nil

theorem set_nil (ht : t.Records h) (v : Value) : t.Records (h ++ [Edit.set .nil v]) where
  entries k w := by rw [ht.entries, stores_concat_of_live_eq (live_concat_set_nil h v k)]
  order := by
    refine ht.order.imp fun hprecedes => hprecedes.concat ?_ ?_
    · intro i hi
      rwa [live_concat_set_nil]
    · intro i hi
      rwa [live_concat_set_nil]

/-- Where a key is there, setting it or another one leaves the first of its edits as it is. -/
theorem isLeast_concat_of_mem_keys (ht : t.Records h) (hk : k ≠ .nil) {a : Value}
    (ha : a ∈ t.keys) (v : Value) {i : Nat} (hi : IsLeast (live h a) i) :
    IsLeast (live (h ++ [Edit.set k v]) a) i := by
  by_cases hak : k = a
  · subst hak
    exact (isLeast_concat_set hk (ht.mem_keys_iff.mp ha) v).mpr hi
  · rwa [live_concat_of_ne (e := .set k v) hak]

theorem insert (ht : t.Records h) (hk : k ≠ .nil) (v : Value) :
    (t.insert k v hk).Records (h ++ [Edit.set k v]) where
  entries := by
    intro a w
    have hmem : (a, w) ∈ (t.insert k v hk).entries ↔ (a, w) = (k, v) ∨ (a, w) ∈ t.entries ∧ a ≠ k :=
      mem_insertEntry t.keys_nodup (a, w)
    rw [hmem]
    by_cases hak : a = k
    · subst hak
      rw [stores_concat_set h hk]
      simp
    · rw [stores_concat_of_live_eq (live_concat_of_ne (Ne.symm hak)), ← ht.entries]
      simp [hak]
  order := by
    have hkept : t.keys.Pairwise (Precedes (h ++ [Edit.set k v])) := by
      refine ht.order.imp_of_mem ?_
      intro a b ha hb hprecedes
      exact hprecedes.concat (fun _ => ht.isLeast_concat_of_mem_keys hk ha v)
        fun _ => ht.isLeast_concat_of_mem_keys hk hb v
    have hkeys : (t.insert k v hk).keys = if k ∈ t.keys then t.keys else t.keys ++ [k] :=
      keys_insertEntry k v t.entries
    rw [hkeys]
    split
    · exact hkept
    · rename_i hnew
      -- a key that was not there comes in behind all others
      have hlive : live h k = ∅ := Set.not_nonempty_iff_eq_empty.mp (mt ht.mem_keys_iff.mpr hnew)
      refine List.pairwise_append.mpr ⟨hkept, List.pairwise_singleton _ _, ?_⟩
      intro a ha b hb
      rw [List.mem_singleton.mp hb]
      obtain ⟨i, hi⟩ := exists_isLeast (ht.mem_keys_iff.mp ha)
      exact ⟨i, h.length, ht.isLeast_concat_of_mem_keys hk ha v hi,
        isLeast_concat_set_new hk hlive v, lt_length_of_mem_live hi.1⟩

theorem remove (ht : t.Records h) (k : Value) : (t.remove k).2.Records (h ++ [Edit.remove k]) where
  entries := by
    intro a w
    have hmem : (a, w) ∈ (t.remove k).2.entries ↔ (a, w) ∈ t.entries ∧ a ≠ k := by
      simp [Table.remove, erase, filter]
    rw [hmem, ht.entries]
    by_cases hak : a = k
    · subst hak
      simp [not_stores_concat_remove]
    · rw [stores_concat_of_live_eq (live_concat_of_ne (Ne.symm hak))]
      simp [hak]
  order := by
    have hsublist : (t.remove k).2.keys.Sublist t.keys := List.Sublist.map _ List.filter_sublist
    have hne : ∀ a ∈ (t.remove k).2.keys, k ≠ a := by
      intro a ha
      obtain ⟨e, he, rfl⟩ := List.mem_map.mp ha
      exact Ne.symm (of_decide_eq_true (List.mem_filter.mp he).2)
    refine (ht.order.sublist hsublist).imp_of_mem ?_
    intro a b ha hb hprecedes
    refine hprecedes.concat ?_ ?_
    · intro i hi
      rwa [live_concat_of_ne (e := .remove k) (hne a ha)]
    · intro i hi
      rwa [live_concat_of_ne (e := .remove k) (hne b hb)]

theorem edit (ht : t.Records h) (e : Edit) : (t.edit e).Records (h ++ [e]) := by
  cases e with
  | set k v =>
      by_cases hk : k = .nil
      · subst hk
        exact ht.set_nil v
      · have hset : t.edit (.set k v) = t.insert k v hk := by
          rw [Table.edit, set?, dif_neg hk]
          rfl
        rw [hset]
        exact ht.insert hk v
  | remove k => exact ht.remove k

end Records

theorem replay_records (h : History) : (replay h).Records h := by
  induction h using List.reverseRecOn with
  | nil => exact Records.start
  | append_singleton h e ih =>
      rw [replay_concat]
      exact ih.edit e

/-! ## Answers -/

namespace History

variable {h : History} {k k' : Value}

theorem Precedes.asymm (hprecedes : Precedes h k k') : ¬ Precedes h k' k := by
  rintro ⟨j', i', hj', hi', hlt'⟩
  obtain ⟨i, j, hi, hj, hlt⟩ := hprecedes
  rw [hi.unique hi', hj.unique hj'] at hlt
  exact Nat.lt_asymm hlt hlt'

end History

namespace Records

open History

variable {t : Table} {h : History} {k v : Value}

theorem get_of_stores (ht : t.Records h) (hv : Stores h k v) : t.get k = v :=
  get_of_mem ((ht.entries k v).mpr hv)

theorem get_of_live_eq_empty (ht : t.Records h) (hlive : live h k = ∅) : t.get k = .nil := by
  apply get_of_notMem
  rw [ht.mem_keys_iff, hlive]
  exact Set.not_nonempty_empty

theorem contains_iff (ht : t.Records h) : t.contains k = true ↔ (live h k).Nonempty := by
  rw [contains, List.contains_iff_mem, ht.mem_keys_iff]

theorem size_eq (ht : t.Records h) : t.size = {k | (live h k).Nonempty}.ncard := by
  have hkeys : {k | (live h k).Nonempty} = (t.keys.toFinset : Set Value) := by
    ext k
    simp [← ht.mem_keys_iff]
  have hnodup : t.keys.Nodup := t.keys_nodup
  rw [hkeys, Set.ncard_coe_finset, List.toFinset_card_of_nodup hnodup]
  exact (List.length_map _).symm

/-- The last key is the one that came in after all others. -/
theorem lastKey?_eq_some_iff (ht : t.Records h) :
    t.lastKey? = some k ↔
      (live h k).Nonempty ∧ ∀ k', (live h k').Nonempty → k' ≠ k → Precedes h k' k := by
  have horder := ht.order
  simp only [← ht.mem_keys_iff]
  rw [lastKey?]
  constructor
  · intro hlast
    obtain ⟨front, hfront⟩ := List.getLast?_eq_some_iff.mp hlast
    rw [hfront] at horder ⊢
    obtain ⟨-, -, hbefore⟩ := List.pairwise_append.mp horder
    refine ⟨by simp, ?_⟩
    intro k' hk' hne
    rcases List.mem_append.mp hk' with hk' | hk'
    · exact hbefore k' hk' k (List.mem_singleton_self k)
    · exact absurd (List.mem_singleton.mp hk') hne
  · rintro ⟨hk, hbehind⟩
    obtain ⟨last, hlast⟩ : ∃ last, t.keys.getLast? = some last :=
      Option.ne_none_iff_exists'.mp fun hnone => by
        rw [List.getLast?_eq_none_iff.mp hnone] at hk
        exact List.not_mem_nil hk
    rw [hlast]
    obtain ⟨front, hfront⟩ := List.getLast?_eq_some_iff.mp hlast
    rw [hfront] at horder hk hbehind
    obtain ⟨-, -, hbefore⟩ := List.pairwise_append.mp horder
    rcases List.mem_append.mp hk with hk | hk
    · have hfirst : Precedes h k last := hbefore k hk last (List.mem_singleton_self last)
      by_cases hne : last = k
      · rw [hne]
      · exact absurd hfirst (hbehind last (by simp) hne).asymm
    · rw [List.mem_singleton.mp hk]

theorem remove_eq_some_iff (ht : t.Records h) : (t.remove k).1 = some v ↔ Stores h k v := by
  rw [← ht.entries, ← lookup_eq_some_iff_mem t.keys_nodup]
  rfl

end Records

open History in
/-- **A table is a map in the order of insertion, over its whole history.** Its entries
are the keys that were set after they were last removed, each once, with the latest value
and in the order of the first set since then; all that can be asked of a table agrees with
these entries. Setting a nil key is refused and changes nothing, a nil value is stored
like any other, and a removal gives back the value and leaves the other entries as they
are. -/
theorem replay_in_insertion_order (h : History) :
    (∀ k v, (k, v) ∈ (replay h).entries ↔ Stores h k v) ∧
    (replay h).keys.Nodup ∧
    (replay h).keys.Pairwise (Precedes h) ∧
    (∀ k v, Stores h k v → (replay h).get k = v) ∧
    (∀ k, live h k = ∅ → (replay h).get k = .nil) ∧
    (∀ k, (replay h).contains k = true ↔ (live h k).Nonempty) ∧
    (replay h).size = {k | (live h k).Nonempty}.ncard ∧
    (∀ k, (replay h).lastKey? = some k ↔
      (live h k).Nonempty ∧ ∀ k', (live h k').Nonempty → k' ≠ k → Precedes h k' k) ∧
    (∀ v, (replay h).set? .nil v = none ∧ replay (h ++ [Edit.set .nil v]) = replay h) ∧
    (∀ k v, k ≠ .nil → (replay h).set? k v = some (replay (h ++ [Edit.set k v]))) ∧
    (∀ k, k ≠ .nil → (k, .nil) ∈ (replay (h ++ [Edit.set k .nil])).entries) ∧
    (∀ k v, ((replay h).remove k).1 = some v ↔ Stores h k v) ∧
    ∀ k, ((replay h).remove k).2 = replay (h ++ [Edit.remove k]) ∧
      (replay (h ++ [Edit.remove k])).entries = (replay h).entries.filter fun e => e.1 ≠ k := by
  have hrecords := replay_records h
  refine ⟨hrecords.entries, (replay h).keys_nodup, hrecords.order,
    fun _ _ => hrecords.get_of_stores, fun _ => hrecords.get_of_live_eq_empty,
    fun _ => hrecords.contains_iff, hrecords.size_eq, fun _ => hrecords.lastKey?_eq_some_iff,
    fun v => ⟨rfl, replay_concat h _⟩, ?_, ?_, fun _ _ => hrecords.remove_eq_some_iff, ?_⟩
  · intro k v hk
    rw [replay_concat, edit, set?, dif_neg hk]
    rfl
  · intro k hk
    exact ((replay_records _).entries k .nil).mpr ((stores_concat_set h hk).mpr rfl)
  · intro k
    rw [replay_concat]
    exact ⟨rfl, rfl⟩

/-- A history in which one key is set twice and another is removed and set again. -/
def History.resettled : History :=
  [Edit.set (.str "a") (.int 1), .set (.str "b") (.int 2), .set (.int 1) (.bool true),
    .set .nil (.int 3), .set (.str "b") .nil, .remove (.str "a"), .set (.str "a") (.int 4)]

open History in
/-- The key that was set twice keeps its place and has its later value, which is nil; the
one that was removed in between comes in last. -/
theorem replay_in_insertion_order_resettled :
    Stores resettled (.str "b") .nil ∧ Precedes resettled (.str "b") (.int 1) ∧
    Precedes resettled (.int 1) (.str "a") ∧ (replay resettled).get (.str "a") = .int 4 ∧
    (replay resettled).lastKey? = some (.str "a") := by
  obtain ⟨hentries, -, horder, hget, -, -, -, -, -⟩ := replay_in_insertion_order resettled
  have hkeys : (replay resettled).keys = [.str "b", .int 1, .str "a"] := by decide +kernel
  rw [hkeys] at horder
  simp only [List.pairwise_cons, List.mem_cons, forall_eq_or_imp] at horder
  have ha : Stores resettled (.str "a") (.int 4) := (hentries _ _).mp (by decide +kernel)
  exact ⟨(hentries _ _).mp (by decide +kernel), horder.1.1, horder.2.1.1, hget _ _ ha,
    by decide +kernel⟩

end Table

end LuaBytecode
