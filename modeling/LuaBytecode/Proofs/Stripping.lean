import Mathlib
import LuaBytecode.Proofs.Height

/-! # Tables without callables

Stripping copies a table and leaves out the callables, also in the tables inside it. What
it makes is related to the original by `Table.Copied`, level by level; all that is said of
the result follows from that relation. Since copies are put into the heap while the
original is still being read, the original must not refer to places that are yet to be
filled.
-/

namespace LuaBytecode

/-! ## Related lists -/

section

variable {α β γ : Type} {R : α → β → Prop} {xs : List α} {ys : List β}

theorem exists_of_forall₂ (hR : List.Forall₂ R xs ys) {y : β} (hy : y ∈ ys) :
    ∃ x ∈ xs, R x y := by
  induction hR with
  | nil => cases hy
  | cons hfirst _ ih =>
      rcases List.mem_cons.mp hy with rfl | hy
      · exact ⟨_, List.mem_cons_self, hfirst⟩
      · obtain ⟨x, hx, hxy⟩ := ih hy
        exact ⟨x, List.mem_cons_of_mem _ hx, hxy⟩

theorem mapM_eq_of_forall₂ {m : Type → Type} [Monad m] [LawfulMonad m] {f : α → m γ}
    {g : β → m γ} (hfg : List.Forall₂ (fun x y => f x = g y) xs ys) : xs.mapM f = ys.mapM g := by
  induction hfg with
  | nil => rfl
  | cons hfirst _ ih => rw [List.mapM_cons, List.mapM_cons, hfirst, ih]

theorem mapM_rel {f : γ → Option α} {g : γ → Option β} {zs : List γ}
    (hfg : ∀ z ∈ zs, Option.Rel R (f z) (g z)) :
    Option.Rel (List.Forall₂ R) (zs.mapM f) (zs.mapM g) := by
  induction zs with
  | nil => exact .some .nil
  | cons z rest ih =>
      have hz := hfg z List.mem_cons_self
      have hrest := ih fun w hw => hfg w (List.mem_cons_of_mem z hw)
      rw [List.mapM_cons, List.mapM_cons]
      generalize f z = x at hz
      generalize g z = y at hz
      generalize rest.mapM f = xs at hrest
      generalize rest.mapM g = ys at hrest
      cases hz with
      | none => exact .none
      | some hxy =>
          cases hrest with
          | none => exact .none
          | some hxys => exact .some (.cons hxy hxys)

end

/-! ## Tables in reach -/

namespace Table

variable {h : Heap} {t u : Table} {k : Value} {ref : TableRef}

/-- The table at this place is a value of the table, or of one that can be reached from it
through values. -/
def Reaches (h : Heap) (t : Table) (ref : TableRef) : Prop :=
  ∃ u k, Relation.ReflTransGen (Holds h) t u ∧ (k, .table ref) ∈ u.entries

/-- All tables that can be reached through values are in the heap. -/
def LivesIn (h : Heap) (t : Table) : Prop := ∀ ref, t.Reaches h ref → ref < h.tables.size

theorem LivesIn.lt (hlives : t.LivesIn h) (hmem : (k, .table ref) ∈ t.entries) :
    ref < h.tables.size :=
  hlives ref ⟨t, k, .refl, hmem⟩

theorem LivesIn.table (hlives : t.LivesIn h) (hmem : (k, .table ref) ∈ t.entries) :
    (h.table ref).LivesIn h := by
  rintro place ⟨u, key, hu, hplace⟩
  exact hlives place ⟨u, key, .head ⟨k, ref, hmem, rfl⟩ hu, hplace⟩

/-- The entries with a value that is kept. -/
def kept (keep : Value → Bool) (t : Table) : List (Value × Value) :=
  t.entries.filter fun e => keep e.2

theorem kept_sublist (keep : Value → Bool) (t : Table) : (t.kept keep).Sublist t.entries :=
  List.filter_sublist

end Table

/-! ## Copies -/

/-- What a copied value is, as far as it shows without looking into tables. -/
def Value.StandsFor (h' : Heap) (first : TableRef) (v v' : Value) : Prop :=
  (v.table? = none ∧ v' = v) ∨
  ∃ ref ref', v = .table ref ∧ v' = .table ref' ∧ first ≤ ref' ∧ ref' < h'.tables.size

/-- The second table, which lies in heap `h'`, copies what `keep` keeps of the first one of
heap `h`: it has the same keys in the same order with the same values or, for tables, such
copies. The copies inside it lie in `h'` from place `first` on. -/
inductive Table.Copied (h h' : Heap) (keep : Value → Bool) (first : TableRef) :
    Table → Table → Prop
  | intro {t t' : Table}
      (entries : List.Forall₂ (fun e e' => e'.1 = e.1 ∧ e.2.StandsFor h' first e'.2)
        (t.kept keep) t'.entries)
      (nested : ∀ k ref ref', (k, .table ref) ∈ t.kept keep → (k, .table ref') ∈ t'.entries →
        Copied h h' keep first (h.table ref) (h'.table ref')) :
      Copied h h' keep first t t'

/-- The second value, which belongs to heap `h'`, is the first one of heap `h` or, for a
table, a copy. -/
def Value.Copied (h h' : Heap) (keep : Value → Bool) (first : TableRef) (v v' : Value) : Prop :=
  (v.table? = none ∧ v' = v) ∨
  ∃ ref ref', v = .table ref ∧ v' = .table ref' ∧ first ≤ ref' ∧ ref' < h'.tables.size ∧
    Table.Copied h h' keep first (h.table ref) (h'.table ref')

theorem Value.Copied.standsFor {h h' : Heap} {keep : Value → Bool} {first : TableRef}
    {v v' : Value} (hcopied : v.Copied h h' keep first v') : v.StandsFor h' first v' := by
  rcases hcopied with hscalar | ⟨ref, ref', hv, hv', hfirst, hlt, -⟩
  · exact .inl hscalar
  · exact .inr ⟨ref, ref', hv, hv', hfirst, hlt⟩

namespace Table.Copied

variable {h h' : Heap} {keep : Value → Bool} {first : TableRef} {t t' : Table}

/-- A copy is made entry by entry. -/
theorem iff_forall₂ : Copied h h' keep first t t' ↔
    List.Forall₂ (fun e e' => e'.1 = e.1 ∧ e.2.Copied h h' keep first e'.2)
      (t.kept keep) t'.entries := by
  constructor
  · rintro ⟨hentries, hnested⟩
    obtain ⟨hlength, hpairs⟩ := List.forall₂_iff_zip.mp hentries
    refine List.forall₂_iff_zip.mpr ⟨hlength, ?_⟩
    rintro ⟨k, v⟩ ⟨k', v'⟩ hpair
    obtain ⟨hkey, hstands⟩ := hpairs hpair
    obtain ⟨hmem, hmem'⟩ := List.of_mem_zip hpair
    refine ⟨hkey, ?_⟩
    cases hkey
    rcases hstands with hscalar | ⟨ref, ref', rfl, rfl, hfirst, hlt⟩
    · exact .inl hscalar
    · exact .inr ⟨ref, ref', rfl, rfl, hfirst, hlt, hnested _ ref ref' hmem hmem'⟩
  · intro hentries
    refine .intro (hentries.imp fun _ _ he => ⟨he.1, he.2.standsFor⟩) ?_
    intro k ref ref' hmem hmem'
    -- keys are unique, so the entry that was copied to this one has the same value
    obtain ⟨⟨k₀, v₀⟩, hmem₀, hkey, hcopied⟩ := exists_of_forall₂ hentries hmem'
    cases hkey
    have hv : v₀ = .table ref :=
      (get_of_mem ((t.kept_sublist keep).mem hmem₀)).symm.trans
        (get_of_mem ((t.kept_sublist keep).mem hmem))
    rcases hcopied with ⟨hscalar, -⟩ | ⟨_, _, hv₀, hv', -, -, hnested⟩
    · rw [hv] at hscalar
      cases hscalar
    · cases hv.symm.trans hv₀
      cases hv'
      exact hnested

/-- A table in a copy lies where copies lie, and copies a table in the original. -/
theorem exists_of_mem_table (hcopied : Copied h h' keep first t t') {k : Value} {ref' : TableRef}
    (hmem' : (k, .table ref') ∈ t'.entries) :
    first ≤ ref' ∧ ref' < h'.tables.size ∧ ∃ ref, (k, .table ref) ∈ t.entries ∧
      Copied h h' keep first (h.table ref) (h'.table ref') := by
  obtain ⟨⟨k₀, v₀⟩, hmem, hkey, hvalue⟩ := exists_of_forall₂ (iff_forall₂.mp hcopied) hmem'
  cases hkey
  rcases hvalue with ⟨hscalar, hsame⟩ | ⟨ref, _, rfl, hv', hfirst, hlt, hnested⟩
  · rw [← hsame] at hscalar
    cases hscalar
  · cases hv'
    exact ⟨hfirst, hlt, ref, (t.kept_sublist keep).mem hmem, hnested⟩

theorem grow {h₂ : Heap} (hgrows : h'.Grows h₂) (hcopied : Copied h h' keep first t t') :
    Copied h h₂ keep first t t' := by
  induction hcopied with
  | intro entries nested ih =>
      refine .intro (entries.imp ?_) ?_
      · rintro e e' ⟨hkey, hscalar | ⟨ref, ref', hv, hv', hfirst, hlt⟩⟩
        · exact ⟨hkey, .inl hscalar⟩
        · exact ⟨hkey, .inr ⟨ref, ref', hv, hv', hfirst, hlt.trans_le hgrows.size⟩⟩
      · intro k ref ref' hmem hmem'
        obtain ⟨-, hlt, -⟩ := exists_of_mem_table (.intro entries nested) hmem'
        rw [hgrows.table _ hlt]
        exact ih k ref ref' hmem hmem'

end Table.Copied

theorem Value.Copied.grow {h h' h₂ : Heap} {keep : Value → Bool} {first : TableRef} {v v' : Value}
    (hgrows : h'.Grows h₂) (hcopied : v.Copied h h' keep first v') :
    v.Copied h h₂ keep first v' := by
  rcases hcopied with hscalar | ⟨ref, ref', hv, hv', hfirst, hlt, hnested⟩
  · exact .inl hscalar
  · refine .inr ⟨ref, ref', hv, hv', hfirst, hlt.trans_le hgrows.size, ?_⟩
    rw [hgrows.table _ hlt]
    exact hnested.grow hgrows

theorem Value.Copied.of_newTable {h h' : Heap} {keep : Value → Bool} {first : TableRef}
    {ref : TableRef} {copy : Table} (hfirst : first ≤ h'.tables.size)
    (hcopied : Table.Copied h h' keep first (h.table ref) copy) :
    (Value.table ref).Copied h (h'.newTable copy).2 keep first (.table (h'.newTable copy).1) := by
  refine .inr ⟨ref, _, rfl, rfl, hfirst, ?_, ?_⟩
  · simp [Heap.newTable]
  · rw [h'.table_newTable_self]
    exact hcopied.grow (h'.grows_newTable copy)

namespace Table.Copied

variable {h h' : Heap} {keep : Value → Bool} {first : TableRef} {t t' : Table}

theorem exists_of_holds (hcopied : Copied h h' keep first t t') {u' : Table}
    (hu' : Holds h' t' u') : ∃ u, Holds h t u ∧ Copied h h' keep first u u' := by
  obtain ⟨k, ref', hmem', rfl⟩ := hu'
  obtain ⟨-, -, ref, hmem, hnested⟩ := hcopied.exists_of_mem_table hmem'
  exact ⟨h.table ref, ⟨k, ref, hmem, rfl⟩, hnested⟩

/-- Every table that can be reached from a copy is the copy of one that can be reached from
the original. -/
theorem exists_of_reached (hcopied : Copied h h' keep first t t') {u' : Table}
    (hu' : Relation.ReflTransGen (Holds h') t' u') :
    ∃ u, Relation.ReflTransGen (Holds h) t u ∧ Copied h h' keep first u u' := by
  induction hu' with
  | refl => exact ⟨t, .refl, hcopied⟩
  | tail _ hholds ih =>
      obtain ⟨u, hu, hcopied⟩ := ih
      obtain ⟨w, hw, hcopied⟩ := hcopied.exists_of_holds hholds
      exact ⟨w, hu.tail hw, hcopied⟩

theorem place_of_reaches (hcopied : Copied h h' keep first t t') {ref' : TableRef}
    (href' : t'.Reaches h' ref') : first ≤ ref' ∧ ref' < h'.tables.size := by
  obtain ⟨u', k, hu', hmem'⟩ := href'
  obtain ⟨u, -, hcopied⟩ := hcopied.exists_of_reached hu'
  obtain ⟨hfirst, hlt, -⟩ := hcopied.exists_of_mem_table hmem'
  exact ⟨hfirst, hlt⟩

/-- A copy is no higher than the original. -/
theorem height_lt {n : ℕ} (hcopied : Copied h h' keep first t t') (hlow : height h t < n) :
    height h' t' < n := by
  induction n generalizing t t' with
  | zero => exact absurd hlow not_lt_zero
  | succ n ih =>
      rw [height_lt_succ_iff] at hlow ⊢
      intro u' hu'
      obtain ⟨u, hu, hnested⟩ := hcopied.exists_of_holds hu'
      exact ih hnested (hlow u hu)

/-- Where nothing is left out, a copy has all that the original has. -/
theorem of_keeps_all (hcopied : Copied h h' keep first t t')
    (hall : ∀ u, Relation.ReflTransGen (Holds h) t u → ∀ e ∈ u.entries, keep e.2 = true) :
    Copied h h' (fun _ => true) 0 t t' := by
  induction hcopied with
  | @intro t t' entries nested ih =>
      have hkept : t.kept keep = t.kept fun _ => true := by
        rw [kept, kept, List.filter_true]
        exact List.filter_eq_self.mpr (hall t .refl)
      refine .intro ?_ ?_
      · rw [← hkept]
        refine entries.imp ?_
        rintro e e' ⟨hkey, hscalar | ⟨ref, ref', hv, hv', -, hlt⟩⟩
        · exact ⟨hkey, .inl hscalar⟩
        · exact ⟨hkey, .inr ⟨ref, ref', hv, hv', Nat.zero_le ref', hlt⟩⟩
      · rw [← hkept]
        intro k ref ref' hmem hmem'
        have hholds : Holds h t (h.table ref) := ⟨k, ref, (t.kept_sublist keep).mem hmem, rfl⟩
        exact ih k ref ref' hmem hmem' fun u hu => hall u (.head hholds hu)

end Table.Copied

/-! ## Actions that may fail -/

/-- From heap `h` the action does what `R` says if `P` holds, and fails otherwise. -/
structure Settles {α : Type} (h : Heap) (x : EStateM JsonFault Heap α) (P : Prop)
    (fault : JsonFault) (R : Heap → α → Prop) : Prop where
  success : P → Loads h x R
  failure : ¬ P → ∃ h', x h = .error fault h'

namespace Settles

variable {α β : Type} {h : Heap} {P : Prop} {fault : JsonFault} {R : Heap → α → Prop}
  {S : Heap → β → Prop}

theorem of_loads {x : EStateM JsonFault Heap α} (hP : P) (hx : Loads h x R) :
    Settles h x P fault R :=
  ⟨fun _ => hx, fun hnot => absurd hP hnot⟩

theorem throw (hP : ¬ P) : Settles h (throw fault : EStateM JsonFault Heap α) P fault R :=
  ⟨fun hyes => absurd hyes hP, fun _ => ⟨h, rfl⟩⟩

theorem bind {x : EStateM JsonFault Heap α} {f : α → EStateM JsonFault Heap β}
    (hx : Settles h x P fault R) (hf : ∀ h' a, h.Grows h' → R h' a → Loads h' (f a) S) :
    Settles h (x >>= f) P fault S := by
  refine ⟨fun hP => (hx.success hP).bind hf, fun hP => ?_⟩
  obtain ⟨h', herror⟩ := hx.failure hP
  refine ⟨h', ?_⟩
  show EStateM.bind x f h = _
  rw [EStateM.bind, herror]

theorem fetch {ref : TableRef} {f : Table → EStateM JsonFault Heap α}
    (hf : Settles h (f (h.table ref)) P fault R) : Settles h (Table.fetch ref >>= f) P fault R :=
  ⟨hf.success, hf.failure⟩

/-- A list is worked off up to the first failure. -/
theorem mapM {f : α → EStateM JsonFault Heap β} {P : α → Prop} {R : α → Heap → β → Prop}
    (hlasts : ∀ x h h' b, h.Grows h' → R x h b → R x h' b) {xs : List α}
    (hxs : ∀ x ∈ xs, ∀ h', h.Grows h' → Settles h' (f x) (P x) fault (R x)) :
    Settles h (xs.mapM f) (∀ x ∈ xs, P x) fault
      fun h' bs => List.Forall₂ (fun x b => R x h' b) xs bs := by
  constructor
  · intro hP
    exact .mapM hlasts fun x hx h' hgrows => (hxs x hx h' hgrows).success (hP x hx)
  · intro hP
    induction xs generalizing h with
    | nil => exact absurd nofun hP
    | cons x rest ih =>
        rw [List.mapM_cons]
        by_cases hx : P x
        · obtain ⟨b, h₁, hok, hgrows, -⟩ := (hxs x List.mem_cons_self h (.refl h)).success hx
          have hrest : ∀ y ∈ rest, ∀ h', h₁.Grows h' → Settles h' (f y) (P y) fault (R y) :=
            fun y hy h' hgrows' => hxs y (List.mem_cons_of_mem x hy) h' (hgrows.trans hgrows')
          obtain ⟨h₂, herror⟩ := ih hrest fun hall => hP (List.forall_mem_cons.mpr ⟨hx, hall⟩)
          refine ⟨h₂, ?_⟩
          show EStateM.bind (f x) _ h = _
          rw [EStateM.bind, hok]
          show EStateM.bind (rest.mapM f) _ h₁ = _
          rw [EStateM.bind, herror]
        · obtain ⟨h₁, herror⟩ := (hxs x List.mem_cons_self h (.refl h)).failure hx
          refine ⟨h₁, ?_⟩
          show EStateM.bind (f x) _ h = _
          rw [EStateM.bind, herror]

theorem congr {x : EStateM JsonFault Heap α} {Q : Prop} (hPQ : P ↔ Q)
    (hx : Settles h x P fault R) : Settles h x Q fault R :=
  propext hPQ ▸ hx

theorem ok_iff {x : EStateM JsonFault Heap α} (hx : Settles h x P fault R) :
    (∃ a h', x h = .ok a h') ↔ P := by
  constructor
  · rintro ⟨a, h', hok⟩
    by_contra hP
    obtain ⟨h₁, herror⟩ := hx.failure hP
    cases hok.symm.trans herror
  · intro hP
    obtain ⟨a, h', hok, -⟩ := hx.success hP
    exact ⟨a, h', hok⟩

end Settles

/-! ## Stripping -/

/-- Not callable. -/
def Value.isInert (v : Value) : Bool := !v.isCallable

theorem Value.isInert_table (ref : TableRef) : (Value.table ref).isInert = true := rfl

namespace Table

variable {h h' h₁ : Heap} {t t' : Table} {levels : Nat} {k : Value} {ref : TableRef}

theorem dataEntries_eq_kept (t : Table) : t.dataEntries = t.kept Value.isInert := rfl

theorem mem_dataEntries_table_iff :
    (k, .table ref) ∈ t.dataEntries ↔ (k, .table ref) ∈ t.entries := by
  simp [dataEntries_eq_kept, kept, Value.isInert_table]

/-- The tables in a table are among the values that are not callable. -/
theorem forall_dataEntries_iff {P : Table → Prop} :
    (∀ e ∈ t.dataEntries, ∀ ref, e.2 = .table ref → P (h.table ref))
      ↔ ∀ u, Holds h t u → P u := by
  constructor
  · rintro hall _ ⟨k, ref, hmem, rfl⟩
    exact hall _ (mem_dataEntries_table_iff.mpr hmem) ref rfl
  · rintro hall ⟨k, v⟩ hmem ref rfl
    exact hall _ ⟨k, ref, mem_dataEntries_table_iff.mp hmem, rfl⟩

/-- The copy of a table that stripping makes; all tables in it are new. -/
def Stripped (h h' : Heap) : Table → Table → Prop :=
  Copied h h' Value.isInert h.tables.size

/-- Both tables have the same keys in the same order and the same values, tables being the
same in this sense again. -/
def Identical (h h' : Heap) : Table → Table → Prop := Copied h h' (fun _ => true) 0

theorem Stripped.of_forall₂ {es : List (Value × Value)}
    (hes : List.Forall₂ (fun e e' => e'.1 = e.1 ∧
      e.2.Copied h h' Value.isInert h.tables.size e'.2) t.dataEntries es) :
    t.Stripped h h' (ofEntries es) := by
  have hkeys : es.map Prod.fst = t.dataEntries.map Prod.fst :=
    (forall₂_entries (hes.imp fun _ _ he => ⟨he.1, trivial⟩)).1
  rw [dataEntries_eq_kept] at hkeys
  have hsublist := (t.kept_sublist Value.isInert).map Prod.fst
  refine Copied.iff_forall₂.mpr ?_
  rw [entries_ofEntries]
  · exact hes
  · rw [hkeys]
    exact t.keys_nodup.sublist hsublist
  · rw [hkeys]
    exact fun hnil => t.nil_notMem (hsublist.mem hnil)

/-- Stripping with some levels to go makes a copy of what is lower, and fails on all else. -/
theorem settles_stripWithin (hgrows : h.Grows h₁) (hlives : t.LivesIn h) :
    Settles h₁ (stripWithin levels t) (height h t < levels) (.tooDeep nestingLimit)
      fun h' t' => t.Stripped h h' t' := by
  induction levels generalizing t h₁ with
  | zero => exact .throw not_lt_zero
  | succ levels ih =>
      rw [stripWithin]
      refine .congr (forall_dataEntries_iff.trans height_lt_succ_iff.symm) ((Settles.mapM (R := fun e h' e' => e'.1 = e.1 ∧
        e.2.Copied h h' Value.isInert h.tables.size e'.2) ?_ ?_).bind ?_)
      · rintro e h₂ h₃ e' hgrows' ⟨hkey, hvalue⟩
        exact ⟨hkey, hvalue.grow hgrows'⟩
      · rintro ⟨k, v⟩ hmem h₂ hgrows'
        cases hv : v.table? with
        | none =>
            have hscalar : Loads h₂ (pure (k, v)) fun h' e' => e'.1 = k ∧
                v.Copied h h' Value.isInert h.tables.size e'.2 := .pure ⟨rfl, .inl ⟨hv, rfl⟩⟩
            refine .of_loads ?_ ?_
            · rintro ref rfl
              cases hv
            · cases v with
              | table ref => cases hv
              | _ => exact hscalar
        | some ref =>
            cases table?_eq_some_iff.mp hv
            have hplace : (k, .table ref) ∈ t.entries := mem_dataEntries_table_iff.mp hmem
            have hfrom : h.Grows h₂ := hgrows.trans hgrows'
            refine .fetch ?_
            rw [hfrom.table ref (hlives.lt hplace)]
            refine .congr ⟨fun hlow _ href => Value.table.inj href ▸ hlow, fun hlow => hlow ref rfl⟩ ?_
            refine (ih hfrom (hlives.table hplace)).bind fun h₃ copy hgrows₃ hcopy => ?_
            refine (Loads.allocate (R := fun h' v' =>
              (Value.table ref).Copied h h' Value.isInert h.tables.size v') ?_).map
                fun _ _ hvalue => ⟨rfl, hvalue⟩
            exact .of_newTable (hfrom.trans hgrows₃).size hcopy
      · intro h' es _ hes
        exact .pure (.of_forall₂ hes)

/-! ## Stripped tables as JSON -/

section

variable {R : Value → Value → Prop} {es es' : List (Value × Value)}

theorem lookup_rel (hes : List.Forall₂ (fun e e' => e'.1 = e.1 ∧ R e.2 e'.2) es es') (k : Value) :
    Option.Rel R (es.lookup k) (es'.lookup k) := by
  induction hes with
  | nil => exact .none
  | @cons e e' es es' he _ ih =>
      obtain ⟨hkey, hvalue⟩ := he
      rw [List.lookup_cons, List.lookup_cons, hkey]
      by_cases hk : k = e.1
      · rw [beq_iff_eq.mpr hk]
        exact .some hvalue
      · rw [beq_eq_false_iff_ne.mpr hk]
        exact ih

/-- The keys alone decide whether there is a sequence. -/
theorem sequenceValues?_rel
    (hes : List.Forall₂ (fun e e' => e'.1 = e.1 ∧ R e.2 e'.2) es es') :
    Option.Rel (List.Forall₂ R) (sequenceValues? es) (sequenceValues? es') := by
  have hkeys : es'.map Prod.fst = es.map Prod.fst :=
    (forall₂_entries (hes.imp fun _ _ he => ⟨he.1, trivial⟩)).1
  have hlength : es'.length = es.length := hes.length_eq.symm
  have hempty : es'.isEmpty = es.isEmpty := by
    rw [Bool.eq_iff_iff, List.isEmpty_iff_length_eq_zero, List.isEmpty_iff_length_eq_zero, hlength]
  have hall : (es'.all fun e => isPosition es.length e.1)
      = es.all fun e => isPosition es.length e.1 := by
    have hmap := congrArg (List.all · (isPosition es.length)) hkeys
    rwa [List.all_map, List.all_map] at hmap
  rw [sequenceValues?, sequenceValues?, hlength, hempty, hall]
  split
  · exact .none
  · exact mapM_rel fun i _ => lookup_rel hes _

end

theorem Stripped.isCallable_eq_false (hstripped : t.Stripped h h' t') {e' : Value × Value}
    (he' : e' ∈ t'.entries) : e'.2.isCallable = false := by
  obtain ⟨e, he, -, hvalue⟩ := exists_of_forall₂ (Copied.iff_forall₂.mp hstripped) he'
  rcases hvalue with ⟨-, hsame⟩ | ⟨_, ref', -, hv', -⟩
  · rw [hsame]
    simpa [Value.isInert] using (List.mem_filter.mp he).2
  · rw [hv']
    rfl

theorem Stripped.dataEntries_eq (hstripped : t.Stripped h h' t') :
    t'.dataEntries = t'.entries := by
  refine List.filter_eq_self.mpr fun e' he' => ?_
  rw [hstripped.isCallable_eq_false he']
  rfl

/-- Leaving out the callables first makes no difference to the JSON. -/
theorem Stripped.toJsonWithin_eq (hstripped : t.Stripped h h' t') :
    toJsonWithin h' levels t' = toJsonWithin h levels t := by
  induction levels generalizing t t' with
  | zero => rfl
  | succ levels ih =>
      have hvalue {v v' : Value} (hcopied : v.Copied h h' Value.isInert h.tables.size v') :
          valueToJson (fun ref => toJsonWithin h levels (h.table ref)) v
            = valueToJson (fun ref => toJsonWithin h' levels (h'.table ref)) v' := by
        rcases hcopied with ⟨hscalar, rfl⟩ | ⟨ref, ref', rfl, rfl, -, -, hnested⟩
        · cases v' with
          | table ref => cases hscalar
          | _ => rfl
        · exact (ih hnested).symm
      have hentries := Copied.iff_forall₂.mp hstripped
      rw [← dataEntries_eq_kept, ← hstripped.dataEntries_eq] at hentries
      have hsequence := sequenceValues?_rel hentries
      generalize hseq : sequenceValues? t.dataEntries = values at hsequence
      generalize hseq' : sequenceValues? t'.dataEntries = values' at hsequence
      cases hsequence with
      | none =>
          rw [toJsonWithin_fields hseq, toJsonWithin_fields hseq']
          refine congrArg (· >>= _) (mapM_eq_of_forall₂ (hentries.imp ?_)).symm
          rintro e e' ⟨hkey, hcopied⟩
          rw [hvalue hcopied, hkey]
      | some hvalues =>
          rw [toJsonWithin_sequence hseq, toJsonWithin_sequence hseq']
          exact congrArg (· >>= _) (mapM_eq_of_forall₂ (hvalues.imp fun _ _ => hvalue)).symm

/-! ## What stripping leaves -/

theorem settles_strip (hlives : t.LivesIn h) :
    Settles h (strip t) (height h t ≤ nestingLimit) (.tooDeep nestingLimit)
      fun h' t' => t.Stripped h h' t' :=
  .congr height_lt_succ_iff_le (settles_stripWithin (.refl h) hlives)

theorem stripped_of_strip {s : Table} (hlives : t.LivesIn h) (hok : strip t h = .ok s h') :
    height h t ≤ nestingLimit ∧ h.Grows h' ∧ t.Stripped h h' s := by
  have hlow := (settles_strip hlives).ok_iff.mp ⟨s, h', hok⟩
  obtain ⟨s₀, h₀, hok₀, hgrows, hstripped⟩ := (settles_strip hlives).success hlow
  cases hok.symm.trans hok₀
  exact ⟨hlow, hgrows, hstripped⟩

theorem Stripped.keys_eq (hstripped : t.Stripped h h' t') :
    t'.keys = t.dataEntries.map Prod.fst :=
  (forall₂_entries ((Copied.iff_forall₂.mp hstripped).imp fun _ _ he => ⟨he.1, trivial⟩)).1

/-- Nothing is left to strip from a copy: stripping it again makes an identical table. -/
theorem Stripped.strip_again (hstripped : t.Stripped h h' t')
    (hlow : height h t ≤ nestingLimit) :
    ∃ s h'', strip t' h' = .ok s h'' ∧ Identical h' h'' t' s := by
  have hlives : t'.LivesIn h' := fun ref href => (hstripped.place_of_reaches href).2
  have hlow' : height h' t' ≤ nestingLimit :=
    height_lt_succ_iff_le.mp (hstripped.height_lt (height_lt_succ_iff_le.mpr hlow))
  obtain ⟨s, h'', hok, -, hagain⟩ := (settles_strip hlives).success hlow'
  refine ⟨s, h'', hok, hagain.of_keeps_all ?_⟩
  intro u' hu' e' he'
  obtain ⟨u, -, hcopied⟩ := hstripped.exists_of_reached hu'
  rw [Value.isInert, Stripped.isCallable_eq_false hcopied he']
  rfl

/-- **Stripping commutes with serialization.** Let stripping a table succeed. Then no table
that can be reached from the result has a callable value, and stripping the result makes an
identical table. The result is the same JSON and the same text as the original. It has the
entries of the original that are not callable, with the same keys in the same order. All
that was in the heap is unchanged, and the tables that can be reached from the result are
new. -/
theorem strip_commutes_with_json {s : Table} (hlives : t.LivesIn h) (hok : strip t h = .ok s h') :
    (∀ u, Relation.ReflTransGen (Holds h') s u → ∀ e ∈ u.entries, e.2.isCallable = false) ∧
    (∃ s' h'', strip s h' = .ok s' h'' ∧ Identical h' h'' s s') ∧
    (s.toJson h' = t.toJson h ∧ s.toJsonText h' = t.toJsonText h) ∧
    (s.keys = t.dataEntries.map Prod.fst ∧ t.Stripped h h' s) ∧
    (h.Grows h' ∧ ∀ ref, s.Reaches h' ref → h.tables.size ≤ ref ∧ ¬ t.Reaches h ref) := by
  obtain ⟨hlow, hgrows, hstripped⟩ := stripped_of_strip hlives hok
  have hordered : s.toJsonOrdered h' = t.toJsonOrdered h := hstripped.toJsonWithin_eq
  refine ⟨?_, hstripped.strip_again hlow, ?_, ⟨hstripped.keys_eq, hstripped⟩, hgrows, ?_⟩
  · intro u' hu' e' he'
    obtain ⟨u, -, hcopied⟩ := hstripped.exists_of_reached hu'
    exact Stripped.isCallable_eq_false hcopied he'
  · rw [toJson, toJson, toJsonText, toJsonText, hordered]
    exact ⟨rfl, rfl⟩
  · intro ref href
    have hnew : h.tables.size ≤ ref := (hstripped.place_of_reaches href).1
    exact ⟨hnew, fun hold => absurd (hlives ref hold) (Nat.not_lt.mpr hnew)⟩

/-- A table that holds another one twice, under a key that is this other table as well, and
a callable. -/
def sharing : Table :=
  ofEntries [(.table 0, .table 0), (.str "g", .host "print"), (.str "a", .table 0)]

/-- The other table is a sequence once its callable has been left out. -/
def sharingHeap : Heap where
  tables := #[ofEntries [(.str "f", .host "print"), (.int 1, .nil)]]

theorem strip_commutes_with_json_sharing :
    sharing.LivesIn sharingHeap ∧
    ∃ s h', strip sharing sharingHeap = .ok s h' ∧ s.keys = [.table 0, .str "a"] ∧
      s.toJsonText h' = sharing.toJsonText sharingHeap ∧
      ∀ ref, s.Reaches h' ref → 1 ≤ ref := by
  have hsharing {u : Table} : Holds sharingHeap sharing u ↔ u = sharingHeap.table 0 := by
    rw [holds_iff, show sharing.entries.filterMap (fun e => e.2.table?) = [0, 0] by decide]
    simp
  have hother {u : Table} : ¬ Holds sharingHeap (sharingHeap.table 0) u := by
    rw [holds_iff, show (sharingHeap.table 0).entries.filterMap (fun e => e.2.table?) = [] by
      decide]
    simp
  have hreached {u : Table} (hu : Relation.ReflTransGen (Holds sharingHeap) sharing u) :
      u = sharing ∨ u = sharingHeap.table 0 := by
    induction hu with
    | refl => exact .inl rfl
    | tail _ hholds ih =>
        rcases ih with rfl | rfl
        · exact .inr (hsharing.mp hholds)
        · exact absurd hholds hother
  have hlives : sharing.LivesIn sharingHeap := by
    rintro ref ⟨u, k, hu, hmem⟩
    have href : ref ∈ u.entries.filterMap fun e => e.2.table? :=
      List.mem_filterMap.mpr ⟨_, hmem, rfl⟩
    clear hmem
    rcases hreached hu with rfl | rfl
    all_goals clear hu; revert ref; decide
  have hlow : height sharingHeap sharing ≤ nestingLimit := by
    refine height_lt_succ_iff_le.mp (height_lt_succ_iff.mpr fun u hu => ?_)
    rw [hsharing.mp hu]
    exact height_lt_succ_iff.mpr fun w hw => absurd hw hother
  obtain ⟨s, h', hok⟩ := (settles_strip hlives).ok_iff.mpr hlow
  obtain ⟨-, -, ⟨-, htext⟩, ⟨hkeys, -⟩, -, hnew⟩ := strip_commutes_with_json hlives hok
  refine ⟨hlives, s, h', hok, ?_, htext, fun ref href => (hnew ref href).1⟩
  rw [hkeys]
  decide

end Table

end LuaBytecode
