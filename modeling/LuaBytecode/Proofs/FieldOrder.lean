import Mathlib
import LuaBytecode.Json.Basic
import LuaBytecode.Proofs.Words

/-! # The order of fields

The fields of a JSON object are sorted by name. Names are compared character by
character; since the longer UTF-8 forms belong to the greater characters and start with
the greater bytes, this is also the order of the names as bytes.
-/

namespace LuaBytecode

/-! ## Texts as bytes -/

namespace Bytes

theorem cons_lt_cons_of_le {m n : Nat} (hle : m ≤ n) (hn : n < 256) {xs ys : Bytes}
    (hrest : m = n → xs < ys) : UInt8.ofNat m :: xs < UInt8.ofNat n :: ys := by
  rw [List.cons_lt_cons_iff]
  rcases Nat.lt_or_eq_of_le hle with hlt | heq
  · left
    rwa [UInt8.lt_iff_toNat_lt, UInt8.toNat_ofNat_of_lt' (hlt.trans hn),
      UInt8.toNat_ofNat_of_lt' hn]
  · exact .inr ⟨heq ▸ rfl, hrest heq⟩

/-- The last groups of six bits of a number, each in a byte of its own. -/
def sixBitGroups : (count : Nat) → Nat → Bytes
  | 0, _ => []
  | count + 1, n => UInt8.ofNat (n / 64 ^ count % 64 + 0x80) :: sixBitGroups count n

/-- Numbers that agree before their last groups are in the order of these. -/
theorem sixBitGroups_append_lt {count m n : Nat} (hlt : m < n)
    (hsame : m / 64 ^ count = n / 64 ^ count) (xs ys : Bytes) :
    sixBitGroups count m ++ xs < sixBitGroups count n ++ ys := by
  induction count with
  | zero =>
      rw [Nat.pow_zero, Nat.div_one, Nat.div_one] at hsame
      exact absurd hsame hlt.ne
  | succ count ih =>
      have hle : m / 64 ^ count ≤ n / 64 ^ count := Nat.div_le_div_right hlt.le
      rw [Nat.pow_succ, ← Nat.div_div_eq_div_mul, ← Nat.div_div_eq_div_mul] at hsame
      exact cons_lt_cons_of_le (by omega) (by omega) fun hgroup => ih (by omega)

/-- A character is written as a first byte and groups of six bits, whose number is told by the
range of the first byte. -/
theorem utf8EncodeChar_cases (c : Char) :
    ∃ first mark count,
      String.utf8EncodeChar c = UInt8.ofNat first :: sixBitGroups count c.toNat ∧
      first = c.toNat / 64 ^ count + mark ∧
      (c.toNat < 0x80 ∧ first < 0x80 ∧ mark = 0 ∧ count = 0 ∨
        0x80 ≤ c.toNat ∧ c.toNat < 0x800 ∧ first < 0xe0 ∧ mark = 0xc0 ∧ count = 1 ∨
        0x800 ≤ c.toNat ∧ c.toNat < 0x10000 ∧ first < 0xf0 ∧ mark = 0xe0 ∧ count = 2 ∨
        0x10000 ≤ c.toNat ∧ first < 0xf8 ∧ mark = 0xf0 ∧ count = 3) := by
  have hc : c.toNat < 0x110000 := by
    rcases c.valid with hlow | ⟨-, hhigh⟩
    · exact hlow.trans (by decide)
    · exact hhigh
  by_cases hone : c.toNat ≤ 0x7f
  · exact ⟨c.toNat, 0, 0, if_pos hone, (Nat.div_one _).symm, .inl (by omega)⟩
  by_cases htwo : c.toNat ≤ 0x7ff
  · refine ⟨_, 0xc0, 1, ((if_neg hone).trans (if_pos htwo)).trans ?_, rfl, .inr (.inl (by omega))⟩
    have hfirst : c.toNat / 64 % 32 = c.toNat / 64 := by omega
    show UInt8.ofNat (c.toNat / 64 % 32 + 0xc0) :: _ = _
    rw [hfirst]
    simp [sixBitGroups]
  by_cases hthree : c.toNat ≤ 0xffff
  · refine ⟨_, 0xe0, 2, ((if_neg hone).trans ((if_neg htwo).trans (if_pos hthree))).trans ?_, rfl,
      .inr (.inr (.inl (by omega)))⟩
    have hfirst : c.toNat / 4096 % 16 = c.toNat / 4096 := by omega
    show UInt8.ofNat (c.toNat / 4096 % 16 + 0xe0) :: _ = _
    rw [hfirst]
    simp [sixBitGroups]
  · refine ⟨_, 0xf0, 3, ((if_neg hone).trans ((if_neg htwo).trans (if_neg hthree))).trans ?_, rfl,
      .inr (.inr (.inr (by omega)))⟩
    have hfirst : c.toNat / 262144 % 8 = c.toNat / 262144 := by omega
    show UInt8.ofNat (c.toNat / 262144 % 8 + 0xf0) :: _ = _
    rw [hfirst]
    simp [sixBitGroups]

/-- The form of the lesser character comes first, whatever follows the two. -/
theorem utf8EncodeChar_append_lt {c d : Char} (h : c < d) (xs ys : Bytes) :
    String.utf8EncodeChar c ++ xs < String.utf8EncodeChar d ++ ys := by
  have hlt : c.toNat < d.toNat := h
  obtain ⟨first, mark, count, hc, hfirst, hrange⟩ := utf8EncodeChar_cases c
  obtain ⟨first', mark', count', hd, hfirst', hrange'⟩ := utf8EncodeChar_cases d
  rw [hc, hd]
  by_cases hcount : count = count'
  · obtain rfl := hcount
    have hle : c.toNat / 64 ^ count ≤ d.toNat / 64 ^ count := Nat.div_le_div_right hlt.le
    refine cons_lt_cons_of_le (by omega) (by omega) fun heq => ?_
    exact sixBitGroups_append_lt hlt (by omega) xs ys
  · -- the longer form has the greater first byte
    have hmark' : mark' ≤ first' := hfirst' ▸ Nat.le_add_left _ _
    exact cons_lt_cons_of_le (by omega) (by omega) fun heq => by omega

theorem ofText_eq_flatMap (s : String) :
    ofText s = s.toList.flatMap String.utf8EncodeChar := by
  rw [ofText, ← String.ofList_toList (s := s), String.toByteArray_ofList, List.utf8Encode]
  simp

theorem flatMap_utf8EncodeChar_lt {l l' : List Char} (h : l < l') :
    l.flatMap String.utf8EncodeChar < l'.flatMap String.utf8EncodeChar := by
  induction h with
  | @nil c rest =>
      obtain ⟨b, bytes, hform⟩ := List.exists_cons_of_ne_nil (String.utf8EncodeChar_ne_nil (c := c))
      rw [List.flatMap_cons, hform]
      exact List.Lex.nil
  | rel hlt => exact utf8EncodeChar_append_lt hlt _ _
  | cons _ ih => exact List.append_left_lt ih

theorem ofText_lt {s s' : String} (h : s < s') : ofText s < ofText s' := by
  rw [ofText_eq_flatMap, ofText_eq_flatMap]
  exact flatMap_utf8EncodeChar_lt h

end Bytes

/-! ## Sorting -/

namespace Json

variable {name : String} {value : Json} {e : String × Json} {fields rest : List (String × Json)}

/-- A field comes before the first one, takes its place or goes somewhere behind it. -/
theorem insertField_cons (name : String) (value : Json) (e : String × Json)
    (rest : List (String × Json)) :
    (name < e.1 ∧ insertField name value (e :: rest) = (name, value) :: e :: rest) ∨
    (name = e.1 ∧ insertField name value (e :: rest) = (name, value) :: rest) ∨
    (e.1 < name ∧ insertField name value (e :: rest) = e :: insertField name value rest) := by
  rw [insertField]
  rcases lt_trichotomy name e.1 with hlt | heq | hgt
  · have hcompare : compare name e.1 = .lt := if_pos hlt
    exact .inl ⟨hlt, by rw [hcompare]⟩
  · have hcompare : compare name e.1 = .eq :=
      (if_neg (heq ▸ String.lt_irrefl _)).trans (if_pos heq)
    exact .inr (.inl ⟨heq, by rw [hcompare]⟩)
  · have hcompare : compare name e.1 = .gt :=
      (if_neg (String.lt_asymm hgt)).trans (if_neg (ne_of_gt hgt))
    exact .inr (.inr ⟨hgt, by rw [hcompare]⟩)

theorem mem_names_insertField {x : String} :
    x ∈ (insertField name value fields).map Prod.fst ↔ x = name ∨ x ∈ fields.map Prod.fst := by
  induction fields with
  | nil => exact List.mem_cons
  | cons e rest ih =>
      rcases insertField_cons name value e rest with ⟨hlt, hinsert⟩ | ⟨heq, hinsert⟩ |
        ⟨hgt, hinsert⟩
      · rw [hinsert]
        simp
      · rw [hinsert]
        simp [heq]
      · rw [hinsert, List.map_cons, List.mem_cons, ih, List.map_cons,
          List.mem_cons, or_left_comm]

theorem sorted_insertField (h : (fields.map Prod.fst).Pairwise (· < ·)) :
    ((insertField name value fields).map Prod.fst).Pairwise (· < ·) := by
  induction fields with
  | nil => exact List.pairwise_singleton _ _
  | cons e rest ih =>
      obtain ⟨hfirst, hrest⟩ := List.pairwise_cons.mp h
      rcases insertField_cons name value e rest with ⟨hlt, hinsert⟩ | ⟨heq, hinsert⟩ |
        ⟨hgt, hinsert⟩
      · rw [hinsert]
        refine List.pairwise_cons.mpr ⟨?_, h⟩
        intro x hx
        rcases List.mem_cons.mp hx with rfl | hx
        · exact hlt
        · exact hlt.trans (hfirst x hx)
      · rw [hinsert]
        exact List.pairwise_cons.mpr ⟨heq ▸ hfirst, hrest⟩
      · rw [hinsert]
        refine List.pairwise_cons.mpr ⟨?_, ih hrest⟩
        intro x hx
        rcases mem_names_insertField.mp hx with rfl | hx
        · exact hgt
        · exact hfirst x hx

theorem insertField_perm (h : name ∉ fields.map Prod.fst) :
    (insertField name value fields).Perm ((name, value) :: fields) := by
  induction fields with
  | nil => exact .refl _
  | cons e rest ih =>
      rw [List.map_cons, List.mem_cons, not_or] at h
      obtain ⟨hne, hnotMem⟩ := h
      rcases insertField_cons name value e rest with ⟨hlt, hinsert⟩ | ⟨heq, hinsert⟩ |
        ⟨hgt, hinsert⟩
      · rw [hinsert]
      · exact absurd heq hne
      · rw [hinsert]
        exact ((ih hnotMem).cons e).trans (.swap _ _ _)

/-- Sorting continues from fields that are sorted already. -/
theorem foldl_insertField_sorted (fields : List (String × Json))
    {sorted : List (String × Json)} (h : (sorted.map Prod.fst).Pairwise (· < ·)) :
    ((fields.foldl (fun sorted e => insertField e.1 e.2 sorted) sorted).map Prod.fst).Pairwise
      (· < ·) := by
  induction fields generalizing sorted with
  | nil => exact h
  | cons e rest ih => exact ih (sorted_insertField h)

theorem foldl_insertField_perm {fields sorted : List (String × Json)}
    (h : ((fields ++ sorted).map Prod.fst).Nodup) :
    (fields.foldl (fun sorted e => insertField e.1 e.2 sorted) sorted).Perm
      (fields ++ sorted) := by
  induction fields generalizing sorted with
  | nil => exact .refl _
  | cons e rest ih =>
      rw [List.cons_append, List.map_cons, List.nodup_cons] at h
      obtain ⟨hnotMem, hnodup⟩ := h
      have hnew : e.1 ∉ sorted.map Prod.fst := fun hmem =>
        hnotMem (List.map_append ▸ List.mem_append_right _ hmem)
      have hmoved : (rest ++ insertField e.1 e.2 sorted).Perm (e :: (rest ++ sorted)) :=
        ((insertField_perm hnew).append_left rest).trans List.perm_middle
      refine (ih ?_).trans hmoved
      rw [(hmoved.map Prod.fst).nodup_iff, List.map_cons, List.nodup_cons]
      exact ⟨hnotMem, hnodup⟩

theorem sorted_sortFields (fields : List (String × Json)) :
    ((sortFields fields).map Prod.fst).Pairwise (· < ·) :=
  foldl_insertField_sorted fields List.Pairwise.nil

/-- No field is lost where no name occurs twice. -/
theorem sortFields_perm (h : (fields.map Prod.fst).Nodup) :
    (sortFields fields).Perm fields := by
  have hnodup : ((fields ++ []).map Prod.fst).Nodup := by rwa [List.append_nil]
  have hperm := foldl_insertField_perm hnodup
  rwa [List.append_nil] at hperm

/-! ## Normal forms -/

theorem normalizeItems_eq_map (items : List Json) : normalizeItems items = items.map normalize := by
  induction items with
  | nil => rfl
  | cons item rest ih => exact congrArg (item.normalize :: ·) ih

theorem normalizeFields_eq_map (fields : List (String × Json)) :
    normalizeFields fields = fields.map fun e => (e.1, e.2.normalize) := by
  induction fields with
  | nil => rfl
  | cons e rest ih => exact congrArg ((e.1, e.2.normalize) :: ·) ih

end Json

end LuaBytecode
