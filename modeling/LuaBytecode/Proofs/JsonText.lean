import Mathlib
import LuaBytecode.Proofs.JsonNormalForm
import LuaBytecode.Proofs.NumberText

/-! # JSON text read back

The text of a value is read again exactly as far as it nests: with fewer levels than the
value has the reader fails, and nothing else in a text that was written can stop it. That is
shown by induction on the value, for every text that may follow. In the other direction,
whatever the reader finds in any text has no more levels than it was given.
-/

namespace LuaBytecode.Json

/-! ## Strings -/

theorem readEscape_control {n : Nat} (hn : n < 32) (rest : List Char) :
    readEscape ('u' :: (List.replicate (4 - (Text.hexDigits n).length) '0' ++ Text.hexDigits n
      ++ rest)) = some (Char.ofNat n, rest) := by
  interval_cases n <;> rfl

/-- A character stands for itself or is written as an escape, from which it is read. -/
theorem escapedChar_cases (c : Char) :
    (escapedChar c = [c] ∧ c ≠ '"' ∧ c ≠ '\\' ∧ ¬ c.toNat < 32) ∨
    ∃ es, escapedChar c = '\\' :: es ∧ ∀ rest, readEscape (es ++ rest) = some (c, rest) := by
  by_cases hquote : c = '"'
  · subst hquote
    exact .inr ⟨_, rfl, fun _ => rfl⟩
  by_cases hslash : c = '\\'
  · subst hslash
    exact .inr ⟨_, rfl, fun _ => rfl⟩
  by_cases hb : c = '\x08'
  · subst hb
    exact .inr ⟨_, rfl, fun _ => rfl⟩
  by_cases ht : c = '\t'
  · subst ht
    exact .inr ⟨_, rfl, fun _ => rfl⟩
  by_cases hn : c = '\n'
  · subst hn
    exact .inr ⟨_, rfl, fun _ => rfl⟩
  by_cases hf : c = '\x0c'
  · subst hf
    exact .inr ⟨_, rfl, fun _ => rfl⟩
  by_cases hr : c = '\r'
  · subst hr
    exact .inr ⟨_, rfl, fun _ => rfl⟩
  rw [escapedChar, if_neg hquote, if_neg hslash, if_neg hb, if_neg ht, if_neg hn, if_neg hf,
    if_neg hr]
  by_cases hcontrol : c.toNat < 32
  · rw [if_pos hcontrol]
    refine .inr ⟨_, rfl, fun rest => ?_⟩
    have hcode := readEscape_control hcontrol rest
    rwa [Char.ofNat_toNat] at hcode
  · exact .inl ⟨if_neg hcontrol, hquote, hslash, hcontrol⟩

/-- One character is read from its escape. -/
theorem readStringChars_escapedChar (steps : Nat) (c : Char) (rest : List Char) :
    readStringChars (steps + 1) (escapedChar c ++ rest)
      = (readStringChars steps rest).map fun r => (c :: r.1, r.2) := by
  rcases escapedChar_cases c with ⟨hplain, hquote, hslash, hcontrol⟩ | ⟨es, hescape, hread⟩
  · rw [hplain, List.singleton_append, readStringChars, if_neg hcontrol]
    · exact (Option.map_eq_bind ..).symm
    · exact hquote
    · exact hslash
  · rw [hescape]
    show (readEscape (es ++ rest) >>= _) = _
    rw [hread]
    exact (Option.map_eq_bind ..).symm

theorem readStringChars_append {cs rest : List Char} {steps : Nat} (hsteps : cs.length < steps) :
    readStringChars steps (cs.flatMap escapedChar ++ '"' :: rest) = some (cs, rest) := by
  induction cs generalizing steps with
  | nil =>
      obtain ⟨steps, rfl⟩ := Nat.exists_eq_succ_of_ne_zero (Nat.ne_of_gt hsteps)
      rfl
  | cons c cs ih =>
      obtain ⟨steps, rfl⟩ := Nat.exists_eq_succ_of_ne_zero (Nat.ne_zero_of_lt hsteps)
      rw [List.flatMap_cons, List.append_assoc, readStringChars_escapedChar,
        ih (Nat.lt_of_succ_lt_succ hsteps)]
      rfl

theorem length_le_flatMap_escapedChar (cs : List Char) :
    cs.length ≤ (cs.flatMap escapedChar).length := by
  induction cs with
  | nil => exact le_rfl
  | cons c cs ih =>
      have hpos : 0 < (escapedChar c).length := by
        rcases escapedChar_cases c with ⟨hplain, -⟩ | ⟨es, hescape, -⟩
        · exact hplain ▸ Nat.one_pos
        · exact hescape ▸ Nat.succ_pos _
      rw [List.flatMap_cons, List.length_append, List.length_cons]
      omega

theorem readString_append (s : String) (rest : List Char) :
    readString (s.toList.flatMap escapedChar ++ '"' :: rest) = some (s, rest) := by
  have hlength : s.toList.length < (s.toList.flatMap escapedChar ++ '"' :: rest).length + 1 := by
    have := length_le_flatMap_escapedChar s.toList
    rw [List.length_append]
    omega
  rw [readString, readStringChars_append hlength]
  exact congrArg (fun s => some (s, rest)) String.ofList_toList

/-! ## Readers that may fail -/

/-- The reader succeeds if `P` holds, with this rest, and fails otherwise. -/
structure Finds {α : Type} (x : Option (α × List Char)) (P : Prop) (rest : List Char) : Prop where
  success : P → ∃ a, x = some (a, rest)
  failure : ¬ P → x = none

namespace Finds

variable {α β : Type} {P Q : Prop} {rest rest' : List Char}

theorem some {a : α} (hP : P) : Finds (some (a, rest)) P rest :=
  ⟨fun _ => ⟨a, rfl⟩, fun hnot => absurd hP hnot⟩

theorem none (hP : ¬ P) : Finds (none : Option (α × List Char)) P rest :=
  ⟨fun h => absurd h hP, fun _ => rfl⟩

theorem congr {x : Option (α × List Char)} (hPQ : P ↔ Q) (hx : Finds x P rest) : Finds x Q rest :=
  propext hPQ ▸ hx

theorem bind {x : Option (α × List Char)} {f : α × List Char → Option (β × List Char)}
    (hx : Finds x P rest) (hf : ∀ a, Finds (f (a, rest)) Q rest') :
    Finds (x >>= f) (P ∧ Q) rest' := by
  constructor
  · rintro ⟨hP, hQ⟩
    obtain ⟨a, rfl⟩ := hx.success hP
    exact (hf a).success hQ
  · intro hnot
    by_cases hP : P
    · obtain ⟨a, rfl⟩ := hx.success hP
      exact (hf a).failure fun hQ => hnot ⟨hP, hQ⟩
    · rw [hx.failure hP]
      rfl

theorem bind_pure {x : Option (α × List Char)} (hx : Finds x P rest) (f : α → β) :
    Finds (x >>= fun r => Option.some (f r.1, r.2)) P rest :=
  .congr (and_iff_left trivial) (hx.bind fun _ => .some trivial)

end Finds

/-- The text of a value is read again as far as it nests, whatever follows it. -/
structure Legible (j : Json) : Prop where
  starts : ∃ c cs, j.chars = c :: cs ∧ isBlank c = false ∧ c ≠ ']'
  reads : ∀ (steps levels : Nat) (rest : List Char), 2 * j.chars.length ≤ steps → NumberEnds rest →
    Finds (readValue steps levels (j.chars ++ rest)) (j.depth ≤ levels) rest

/-! ## Scalars -/

section

variable {steps levels : Nat} {rest : List Char}

theorem skipBlanks_cons {c : Char} (hc : isBlank c = false) (cs : List Char) :
    skipBlanks (c :: cs) = c :: cs := by
  simp [skipBlanks, hc]

theorem readValue_digit {c : Char} (hc : isDigit c = true) :
    isBlank c = false ∧ c ≠ ']' ∧ ∀ (steps levels : Nat) (cs : List Char),
      readValue (steps + 1) levels (c :: cs) = readNumber false (c :: cs) := by
  obtain ⟨hleast, hgreatest⟩ := isDigit_iff.mp hc
  rw [← Char.ofNat_toNat c]
  generalize c.toNat = n at *
  interval_cases n <;> exact ⟨rfl, by decide, fun _ _ _ => rfl⟩

/-- What is read in one step is no matter of nesting. -/
theorem Legible.of_scalar {j : Json} {c : Char} {cs : List Char} (hdepth : j.depth = 0)
    (hchars : j.chars = c :: cs) (hblank : isBlank c = false) (hne : c ≠ ']')
    (hreads : ∀ (steps levels : Nat) {rest : List Char}, NumberEnds rest →
      ∃ v, readValue (steps + 1) levels (c :: (cs ++ rest)) = some (v, rest)) : j.Legible := by
  refine ⟨⟨c, cs, hchars, hblank, hne⟩, fun steps levels rest hsteps hrest => ?_⟩
  rw [hchars, List.length_cons] at hsteps
  obtain ⟨steps, rfl⟩ := Nat.exists_eq_succ_of_ne_zero (show steps ≠ 0 by omega)
  obtain ⟨v, hv⟩ := hreads steps levels hrest
  rw [hchars, hdepth, List.cons_append, hv]
  exact .some levels.zero_le

theorem legible_of_isNumberText {j : Json} (hdepth : j.depth = 0) (hj : IsNumberText j.chars) :
    j.Legible := by
  obtain ⟨negative, t, hchars, ht, value, hvalue⟩ := hj
  have hnumber {rest : List Char} (hrest : NumberEnds rest) :
      readNumber negative (t.chars ++ rest) = some (value, rest) := by
    rw [readNumber_append ht negative hrest, hvalue]
    rfl
  cases negative with
  | true => exact .of_scalar hdepth hchars rfl (by decide) fun _ _ _ hrest => ⟨value, hnumber hrest⟩
  | false =>
      obtain ⟨c, cs, hwhole⟩ := List.exists_cons_of_ne_nil ht.whole.1
      have hdigit : isDigit c = true := ht.whole.2 c (hwhole ▸ List.mem_cons_self)
      have htext : t.chars = c :: (cs ++ (NumberText.fractionChars t.fraction ++
          NumberText.exponentChars t.exponent)) := by
        rw [NumberText.chars, hwhole, List.cons_append]
      obtain ⟨hblank, hne, hread⟩ := readValue_digit hdigit
      refine .of_scalar hdepth (hchars.trans htext) hblank hne fun _ _ _ hrest => ⟨value, ?_⟩
      rw [hread, ← List.cons_append, ← htext]
      exact hnumber hrest

theorem legible_str (s : String) : (str s).Legible := by
  refine .of_scalar rfl rfl rfl (by decide) fun steps levels rest _ => ⟨.str s, ?_⟩
  rw [List.append_assoc, List.singleton_append]
  show (readString _ >>= _) = _
  rw [readString_append]
  rfl

theorem legible_null : null.Legible :=
  .of_scalar rfl rfl rfl (by decide) fun _ _ _ _ => ⟨.null, rfl⟩

theorem legible_bool (b : Bool) : (bool b).Legible := by
  cases b with
  | true => exact .of_scalar rfl rfl rfl (by decide) fun _ _ _ _ => ⟨.bool true, rfl⟩
  | false => exact .of_scalar rfl rfl rfl (by decide) fun _ _ _ _ => ⟨.bool false, rfl⟩

theorem legible_float (f : Binary64) : (float f).Legible := by
  by_cases hfinite : f.isFinite = true
  · refine legible_of_isNumberText rfl ?_
    show IsNumberText (if f.isFinite then layout.text f else "null").toList
    rw [if_pos hfinite]
    exact isNumberText_float hfinite
  · refine .of_scalar rfl (?_ : _ = 'n' :: ['u', 'l', 'l']) rfl (by decide) fun _ _ _ _ => ⟨.null, rfl⟩
    show (if f.isFinite then layout.text f else "null").toList = _
    rw [if_neg hfinite]
    rfl

theorem legible_int {n : Int} (hleast : -2 ^ 63 ≤ n) (hgreatest : n < 2 ^ 64) : (int n).Legible :=
  legible_of_isNumberText rfl (isNumberText_int hleast hgreatest)

/-! ## Arrays -/

theorem numberEnds_cons {c : Char} (hc : continuesNumber c = false) (cs : List Char) :
    NumberEnds (c :: cs) := by
  rintro _ ⟨⟩
  exact hc

theorem separated_cons (part : List Char) (parts : List (List Char)) :
    ∃ more, separated (part :: parts) = part ++ more := by
  cases parts with
  | nil => exact ⟨[], (List.append_nil part).symm⟩
  | cons next parts => exact ⟨_, rfl⟩

theorem finds_items {items : List Json} (hitems : ∀ item ∈ items, item.Legible) (hne : items ≠ [])
    (hsteps : 2 * (separated (itemChars items)).length + 1 ≤ steps) :
    Finds (readItems steps levels (separated (itemChars items) ++ ']' :: rest))
      (∀ item ∈ items, item.depth ≤ levels) rest := by
  induction items generalizing steps with
  | nil => exact absurd rfl hne
  | cons item tail ih =>
      obtain ⟨hitem, htail⟩ := List.forall_mem_cons.mp hitems
      obtain ⟨steps, rfl⟩ := Nat.exists_eq_succ_of_ne_zero (show steps ≠ 0 by omega)
      cases tail with
      | nil =>
          have hread := hitem.reads steps levels (']' :: rest) (Nat.le_of_succ_le_succ hsteps)
            (numberEnds_cons rfl rest)
          show Finds (readValue _ _ _ >>= _) _ _
          exact .congr (by simp) (hread.bind (Q := True) fun _ => .some trivial)
      | cons next tail =>
          have hcons : separated (itemChars (item :: next :: tail))
              = item.chars ++ ',' :: separated (itemChars (next :: tail)) := rfl
          rw [hcons, List.length_append, List.length_cons] at hsteps
          have hread := hitem.reads steps levels
            (',' :: (separated (itemChars (next :: tail)) ++ ']' :: rest)) (by omega)
            (numberEnds_cons rfl _)
          rw [hcons, List.append_assoc, List.cons_append, List.forall_mem_cons]
          show Finds (readValue _ _ _ >>= _) _ _
          refine hread.bind fun a => ?_
          exact (ih htail (List.cons_ne_nil _ _) (by omega)).bind_pure (a :: ·)

theorem legible_arr {items : List Json} (hitems : ∀ item ∈ items, item.Legible) :
    (arr items).Legible := by
  refine ⟨⟨'[', _, rfl, rfl, by decide⟩, fun steps levels rest hsteps hrest => ?_⟩
  have htext : (arr items).chars ++ rest = '[' :: (separated (itemChars items) ++ ']' :: rest) :=
    congrArg ('[' :: ·) (List.append_assoc ..)
  have hlength : (arr items).chars.length = (separated (itemChars items)).length + 2 :=
    congrArg (· + 1) List.length_append
  obtain ⟨steps, rfl⟩ := Nat.exists_eq_succ_of_ne_zero (show steps ≠ 0 by omega)
  rw [htext, readValue, skipBlanks_cons rfl]
  cases levels with
  | zero => exact .none (Nat.not_succ_le_zero _)
  | succ levels =>
      refine .congr depth_arr_le_succ_iff.symm ?_
      cases items with
      | nil => exact .some nofun
      | cons item tail =>
          have hread : Finds (readItems steps levels _) _ rest :=
            finds_items hitems (List.cons_ne_nil _ _) (by omega)
          -- the first item must not look like the end of an empty array
          obtain ⟨c, cs, hchars, hblank, hne⟩ := (hitems item List.mem_cons_self).starts
          obtain ⟨more, hmore⟩ := separated_cons item.chars (itemChars tail)
          rw [itemChars, hmore, hchars, List.cons_append, List.cons_append] at hread ⊢
          simp only [skipBlanks_cons hblank]
          split
          · next hclosed => exact absurd (List.cons.inj hclosed).1 hne
          · exact hread.bind_pure arr

/-! ## Objects -/

theorem fieldChars_append (name : String) (value : Json) (rest : List Char) :
    (quotedChars name ++ ':' :: value.chars) ++ rest = '"' :: (name.toList.flatMap escapedChar ++
      '"' :: (':' :: (value.chars ++ rest))) := by
  simp [quotedChars]

theorem finds_fields {fields : List (String × Json)} (hfields : ∀ f ∈ fields, f.2.Legible)
    (hne : fields ≠ []) (hsteps : 2 * (separated (fieldChars fields)).length + 1 ≤ steps) :
    Finds (readFields steps levels (separated (fieldChars fields) ++ '\x7d' :: rest))
      (∀ f ∈ fields, f.2.depth ≤ levels) rest := by
  induction fields generalizing steps with
  | nil => exact absurd rfl hne
  | cons f tail ih =>
      obtain ⟨name, value⟩ := f
      obtain ⟨hfirst, htail⟩ := List.forall_mem_cons.mp hfields
      have hvalue : value.Legible := hfirst
      obtain ⟨steps, rfl⟩ := Nat.exists_eq_succ_of_ne_zero (show steps ≠ 0 by omega)
      cases tail with
      | nil =>
          have hlast : separated (fieldChars [(name, value)])
              = quotedChars name ++ ':' :: value.chars := rfl
          rw [hlast, List.length_append, List.length_cons] at hsteps
          have hread := hvalue.reads steps levels ('\x7d' :: rest) (by omega)
            (numberEnds_cons rfl rest)
          rw [hlast, fieldChars_append]
          show Finds (readString _ >>= _) _ _
          rw [readString_append]
          show Finds (readValue _ _ _ >>= _) _ _
          exact .congr (by simp) (hread.bind (Q := True) fun _ => .some trivial)
      | cons next tail =>
          have hcons : separated (fieldChars ((name, value) :: next :: tail))
              = (quotedChars name ++ ':' :: value.chars) ++
                ',' :: separated (fieldChars (next :: tail)) := rfl
          rw [hcons, List.length_append, List.length_append, List.length_cons,
            List.length_cons] at hsteps
          have hread := hvalue.reads steps levels
            (',' :: (separated (fieldChars (next :: tail)) ++ '\x7d' :: rest)) (by omega)
            (numberEnds_cons rfl _)
          rw [hcons, List.append_assoc, List.cons_append, fieldChars_append, List.forall_mem_cons]
          show Finds (readString _ >>= _) _ _
          rw [readString_append]
          show Finds (readValue _ _ _ >>= _) _ _
          refine hread.bind fun a => ?_
          exact (ih htail (List.cons_ne_nil _ _) (by omega)).bind_pure ((name, a) :: ·)

theorem legible_obj {fields : List (String × Json)} (hfields : ∀ f ∈ fields, f.2.Legible) :
    (obj fields).Legible := by
  refine ⟨⟨'\x7b', _, rfl, rfl, by decide⟩, fun steps levels rest hsteps hrest => ?_⟩
  have htext : (obj fields).chars ++ rest
      = '\x7b' :: (separated (fieldChars fields) ++ '\x7d' :: rest) :=
    congrArg ('\x7b' :: ·) (List.append_assoc ..)
  have hlength : (obj fields).chars.length = (separated (fieldChars fields)).length + 2 :=
    congrArg (· + 1) List.length_append
  obtain ⟨steps, rfl⟩ := Nat.exists_eq_succ_of_ne_zero (show steps ≠ 0 by omega)
  rw [htext]
  cases levels with
  | zero => exact .none (Nat.not_succ_le_zero _)
  | succ levels =>
      refine .congr depth_obj_le_succ_iff.symm ?_
      cases fields with
      | nil => exact .some nofun
      | cons f tail =>
          obtain ⟨name, value⟩ := f
          have hread : Finds (readFields steps levels _) _ rest :=
            finds_fields hfields (List.cons_ne_nil _ _) (by omega)
          obtain ⟨more, hmore⟩ :=
            separated_cons (quotedChars name ++ ':' :: value.chars) (fieldChars tail)
          rw [fieldChars, hmore, quotedChars, List.cons_append, List.cons_append,
            List.cons_append] at hread ⊢
          exact hread.bind_pure fun fields => obj (sortFields fields)

end

/-! ## What is read

Whatever the text, the reader keeps to the levels that it is given. -/

theorem scalar_of_value? {n : Numeral} {j : Json} (hj : n.value? = some j) : ¬ j.IsContainer := by
  have hparts {negative : Bool} {significand : Nat} {exponent : Int}
      (h : Numeral.ofParts negative significand exponent = some j) : ¬ j.IsContainer := by
    obtain ⟨f, -, rfl⟩ := Option.map_eq_some_iff.mp h
    exact id
  have hknown {v : Json} (hv : ¬ v.IsContainer) (h : some v = some j) : ¬ j.IsContainer :=
    Option.some.inj h ▸ hv
  rw [Numeral.value?] at hj
  split at hj
  split at hj
  · split_ifs at hj
    · exact hparts hj
    · exact hknown id hj
    · exact hknown id hj
    · exact hknown id hj
  · dsimp only at hj
    split at hj
    · exact hparts hj
    · split_ifs at hj
      · exact hknown id hj
      · exact hparts hj
      · exact hparts hj

theorem scalar_of_readNumber {negative : Bool} {cs rest : List Char} {j : Json}
    (hj : readNumber negative cs = some (j, rest)) : ¬ j.IsContainer := by
  obtain ⟨⟨whole, cs⟩, -, hj⟩ := Option.bind_eq_some_iff.mp hj
  obtain ⟨⟨fraction, cs⟩, -, hj⟩ := Option.bind_eq_some_iff.mp hj
  obtain ⟨⟨exponent, cs⟩, -, hj⟩ := Option.bind_eq_some_iff.mp hj
  obtain ⟨value, hvalue, hj⟩ := Option.bind_eq_some_iff.mp hj
  cases hj
  exact scalar_of_value? hvalue

theorem scalar_of_readWord {word : String} {value j : Json} {cs rest : List Char}
    (hvalue : ¬ value.IsContainer) (hj : readWord word value cs = some (j, rest)) :
    ¬ j.IsContainer := by
  rw [readWord] at hj
  split_ifs at hj
  cases hj
  exact hvalue

/-- What one step of the reader can find: a scalar, if no bracket comes first, or an array or
object for which a level is used up. -/
theorem readValue_cases {steps levels : Nat} {cs rest : List Char} {j : Json}
    (hj : readValue (steps + 1) levels cs = some (j, rest)) :
    (¬ j.IsContainer ∧ ∀ inner, skipBlanks cs ≠ '[' :: inner ∧ skipBlanks cs ≠ '\x7b' :: inner) ∨
    (∃ below items, levels = below + 1 ∧ j = .arr items ∧
      (items = [] ∨ ∃ inner, readItems steps below inner = some (items, rest))) ∨
    ∃ below fields, levels = below + 1 ∧ j = .obj (sortFields fields) ∧
      (fields = [] ∨ ∃ inner, readFields steps below inner = some (fields, rest)) := by
  rw [readValue] at hj
  split at hj
  · next hcs => exact .inl ⟨scalar_of_readWord id hj, by simp [hcs]⟩
  · next hcs => exact .inl ⟨scalar_of_readWord id hj, by simp [hcs]⟩
  · next hcs => exact .inl ⟨scalar_of_readWord id hj, by simp [hcs]⟩
  · next hcs =>
      obtain ⟨⟨s, inner⟩, -, hj⟩ := Option.bind_eq_some_iff.mp hj
      cases hj
      exact .inl ⟨id, by simp [hcs]⟩
  · next hcs => exact .inl ⟨scalar_of_readNumber hj, by simp [hcs]⟩
  · right
    left
    split at hj
    · cases hj
    · split at hj
      · cases hj
        exact ⟨_, [], rfl, rfl, .inl rfl⟩
      · obtain ⟨⟨items, inner⟩, hitems, hj⟩ := Option.bind_eq_some_iff.mp hj
        cases hj
        exact ⟨_, items, rfl, rfl, .inr ⟨_, hitems⟩⟩
  · right
    right
    split at hj
    · cases hj
    · split at hj
      · cases hj
        exact ⟨_, [], rfl, rfl, .inl rfl⟩
      · obtain ⟨⟨fields, inner⟩, hfields, hj⟩ := Option.bind_eq_some_iff.mp hj
        cases hj
        exact ⟨_, fields, rfl, rfl, .inr ⟨_, hfields⟩⟩
  · next harr hobj =>
      exact .inl ⟨scalar_of_readNumber hj, fun inner => ⟨harr inner, hobj inner⟩⟩

theorem mem_of_mem_insertField {name : String} {value : Json} {fields : List (String × Json)}
    {f : String × Json} (hf : f ∈ insertField name value fields) :
    f = (name, value) ∨ f ∈ fields := by
  induction fields with
  | nil => exact .inl (List.mem_singleton.mp hf)
  | cons e rest ih =>
      rcases insertField_cons name value e rest with ⟨-, hinsert⟩ | ⟨-, hinsert⟩ | ⟨-, hinsert⟩
      · exact List.mem_cons.mp (hinsert ▸ hf)
      · exact (List.mem_cons.mp (hinsert ▸ hf)).imp_right (List.mem_cons_of_mem e)
      · rcases List.mem_cons.mp (hinsert ▸ hf) with rfl | hf
        · exact .inr List.mem_cons_self
        · exact (ih hf).imp_right (List.mem_cons_of_mem e)

theorem mem_of_mem_sortFields {fields : List (String × Json)} {f : String × Json}
    (hf : f ∈ sortFields fields) : f ∈ fields := by
  have hfold {sorted : List (String × Json)}
      (hf : f ∈ fields.foldl (fun sorted e => insertField e.1 e.2 sorted) sorted) :
      f ∈ sorted ∨ f ∈ fields := by
    clear * - hf
    induction fields generalizing sorted with
    | nil => exact .inl hf
    | cons e rest ih =>
        rcases ih hf with hf | hf
        · rcases mem_of_mem_insertField hf with rfl | hf
          · exact .inr List.mem_cons_self
          · exact .inl hf
        · exact .inr (List.mem_cons_of_mem e hf)
  exact (hfold hf).resolve_left List.not_mem_nil

/-- What the three readers find within a number of levels. -/
structure KeepsLevels (steps : Nat) : Prop where
  value : ∀ {levels cs j rest}, readValue steps levels cs = some (j, rest) → j.depth ≤ levels
  items : ∀ {levels cs items rest}, readItems steps levels cs = some (items, rest) →
    ∀ item ∈ items, item.depth ≤ levels
  fields : ∀ {levels cs fields rest}, readFields steps levels cs = some (fields, rest) →
    ∀ f ∈ fields, f.2.depth ≤ levels

theorem keepsLevels (steps : Nat) : KeepsLevels steps := by
  induction steps with
  | zero => exact ⟨nofun, nofun, nofun⟩
  | succ steps ih =>
      constructor
      · intro levels cs j rest h
        rcases readValue_cases h with ⟨hscalar, -⟩ | ⟨below, items, rfl, rfl, hitems⟩ |
          ⟨below, fields, rfl, rfl, hfields⟩
        · rw [depth_eq_zero_of_scalar hscalar]
          exact levels.zero_le
        · rw [depth_arr_le_succ_iff]
          rcases hitems with rfl | ⟨inner, hitems⟩
          · exact nofun
          · exact ih.items hitems
        · rw [depth_obj_le_succ_iff]
          rcases hfields with rfl | ⟨inner, hfields⟩
          · exact nofun
          · exact fun f hf => ih.fields hfields f (mem_of_mem_sortFields hf)
      · intro levels cs items rest h
        rw [readItems] at h
        obtain ⟨⟨item, cs⟩, hitem, h⟩ := Option.bind_eq_some_iff.mp h
        have hfirst := ih.value hitem
        dsimp only at h
        split at h
        · cases h
          exact List.forall_mem_singleton.mpr hfirst
        · obtain ⟨⟨tail, cs⟩, htail, h⟩ := Option.bind_eq_some_iff.mp h
          cases h
          exact List.forall_mem_cons.mpr ⟨hfirst, ih.items htail⟩
        · cases h
      · intro levels cs fields rest h
        rw [readFields] at h
        split at h
        · obtain ⟨⟨name, cs⟩, -, h⟩ := Option.bind_eq_some_iff.mp h
          dsimp only at h
          split at h
          · obtain ⟨⟨value, cs⟩, hvalue, h⟩ := Option.bind_eq_some_iff.mp h
            have hfirst := ih.value hvalue
            dsimp only at h
            split at h
            · cases h
              exact List.forall_mem_singleton.mpr hfirst
            · obtain ⟨⟨tail, cs⟩, htail, h⟩ := Option.bind_eq_some_iff.mp h
              cases h
              exact List.forall_mem_cons.mpr ⟨hfirst, ih.fields htail⟩
            · cases h
          · cases h
        · cases h

/-- What starts with an opening bracket is read as an array or an object. -/
theorem isContainer_of_readValue {j v : Json} {steps levels : Nat} {rest : List Char}
    (hj : j.IsContainer) (hv : readValue (steps + 1) levels j.chars = some (v, rest)) :
    v.IsContainer := by
  rcases readValue_cases hv with ⟨-, hfirst⟩ | ⟨below, items, -, rfl, -⟩ |
    ⟨below, fields, -, rfl, -⟩
  · cases j with
    | arr items => exact absurd (skipBlanks_cons rfl _) (hfirst _).1
    | obj fields => exact absurd (skipBlanks_cons rfl _) (hfirst _).2
    | _ => cases hj
  · exact trivial
  · exact trivial

/-- The text of an array or object is read as one that nests no deeper than the reader allows. -/
theorem parse?_text {j : Json} (hj : j.IsContainer) (hlegible : j.Legible)
    (hdepth : j.depth ≤ readerLimit) :
    ∃ v, parse? j.text = some v ∧ v.IsContainer ∧ v.depth ≤ readerLimit := by
  have hread := hlegible.reads (2 * j.chars.length + 2) readerLimit [] (by omega) nofun
  rw [List.append_nil] at hread
  obtain ⟨v, hv⟩ := hread.success hdepth
  refine ⟨v, ?_, isContainer_of_readValue hj hv, (keepsLevels _).value hv⟩
  rw [parse?, text, String.toList_ofList, hv]
  rfl

theorem parse?_text_of_deep {j : Json} (hlegible : j.Legible) (hdepth : ¬ j.depth ≤ readerLimit) :
    parse? j.text = none := by
  have hread := hlegible.reads (2 * j.chars.length + 2) readerLimit [] (by omega) nofun
  rw [List.append_nil] at hread
  rw [parse?, text, String.toList_ofList, hread.failure hdepth]

end LuaBytecode.Json
