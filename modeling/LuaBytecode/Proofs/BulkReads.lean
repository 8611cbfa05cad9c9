import Mathlib
import LuaBytecode.Proofs.DecodeFaults

/-! # Reading many values, and reading on after a failure

An array of words is read in one go: its size is worked out and checked once. It is found exactly
where its words are found one by one, because both ways read the same form. That the size may not
fit into 64 bits makes no difference, as no image is that long.

A failed read is not the end: a reader may go on from where it was left. Every operation leaves it
behind some of the bytes that were there, whether it finds something or fails, and a read of a
fixed number of bytes that fails leaves it where it was.
-/

namespace LuaBytecode

/-! ## Ways through an image -/

/-- Some bytes lead from the first cursor to the second. -/
def Cursor.Reaches (c c' : Cursor) : Prop := ∃ bytes, c.Past bytes c'

namespace Cursor.Reaches

variable {c c' c'' : Cursor}

theorem refl (c : Cursor) : c.Reaches c := ⟨[], .refl c⟩

theorem trans (h : c.Reaches c') (h' : c'.Reaches c'') : c.Reaches c'' := by
  obtain ⟨x, hx⟩ := h
  obtain ⟨y, hy⟩ := h'
  exact ⟨x ++ y, hx.trans hy⟩

theorem position_le (h : c.Reaches c') : c.position ≤ c'.position := by
  obtain ⟨bytes, hpast⟩ := h
  rw [hpast.position]
  exact Nat.le_add_right _ _

theorem within {image : Bytes} (h : c.Reaches c') (hc : c.Within image) : c'.Within image := by
  obtain ⟨bytes, hpast⟩ := h
  exact hc.past hpast

end Cursor.Reaches

namespace Decoder

variable {α β : Type}

/-! ## Where a decoder leaves the cursor -/

/-- Whether it finds a value or fails, the decoder does not go back and does not leave the bytes
that are there. -/
structure Advances (d : Decoder α) : Prop where
  found : ∀ ⦃c c' : Cursor⦄ ⦃a : α⦄, d c = .ok a c' → c.Reaches c'
  failed : ∀ ⦃c c' : Cursor⦄ ⦃fault : DecodeFault⦄, d c = .error fault c' → c.Reaches c'

theorem Decided.reaches {least : Nat} {d : Decoder α} (hd : Decided least d) {c c' : Cursor} {a : α}
    (h : d c = .ok a c') : c.Reaches c' := by
  obtain ⟨bytes, hpast, -, -⟩ := hd.found h
  exact ⟨bytes, hpast⟩

/-- A decoder that fails leaves the cursor where it was. -/
def KeepsPlace (d : Decoder α) : Prop :=
  ∀ ⦃c c' : Cursor⦄ ⦃fault : DecodeFault⦄, d c = .error fault c' → c' = c

namespace KeepsPlace

theorem truncated (wanted : Nat) : KeepsPlace (truncated wanted : Decoder α) := by
  intro c c' fault h
  cases h
  rfl

/-- What is made of a value afterwards cannot fail. -/
theorem bind_pure {d : Decoder α} (hd : KeepsPlace d) (f : α → β) :
    KeepsPlace (d >>= fun a => Pure.pure (f a)) := by
  intro c c' fault h
  cases hda : d c with
  | ok a c₁ =>
      rw [bind_of_ok hda] at h
      cases h
  | error fault' c₁ =>
      rw [bind_of_error hda] at h
      cases h
      exact hd hda

theorem ite {P : Prop} [Decidable P] {d e : Decoder α} (hd : KeepsPlace d) (he : KeepsPlace e) :
    KeepsPlace (if P then d else e) := by
  split
  · exact hd
  · exact he

theorem byte : KeepsPlace byte := by
  rintro ⟨position, _ | ⟨b, rest⟩⟩ c' fault h
  · exact truncated 1 h
  · cases h

theorem slice (n : Nat) : KeepsPlace (slice n) := by
  intro c c' fault h
  unfold Decoder.slice at h
  split at h
  · cases h
  · exact truncated n h

theorem fixed (α : Type) [FixedWidth α] : KeepsPlace (fixed α) := (slice _).bind_pure _

theorem array (α : Type) [FixedWidth α] (n : Nat) : KeepsPlace (array α n) :=
  ite ((slice _).bind_pure _) (truncated _)

theorem advances {least : Nat} {d : Decoder α} (h : KeepsPlace d) (hd : Decided least d) :
    Advances d where
  found _ _ _ := hd.reaches
  failed c c' fault hfail := by
    rw [h hfail]
    exact .refl c

end KeepsPlace

namespace Advances

theorem pure (a : α) : Advances (Pure.pure a : Decoder α) where
  found c _ _ h := by
    cases h
    exact .refl c
  failed _ _ _ h := by cases h

theorem throw (fault : DecodeFault) : Advances (MonadExcept.throw fault : Decoder α) where
  found _ _ _ h := by cases h
  failed c _ _ h := by
    cases h
    exact .refl c

theorem position : Advances position where
  found c _ _ h := by
    cases h
    exact .refl c
  failed _ _ _ h := by cases h

theorem bind {d : Decoder α} {k : α → Decoder β} (hd : Advances d) (hk : ∀ a, Advances (k a)) :
    Advances (d >>= k) where
  found c c' b h := by
    obtain ⟨a, c₁, hda, hka⟩ := bind_eq_ok_iff.mp h
    exact (hd.found hda).trans ((hk a).found hka)
  failed c c' fault h := by
    cases hda : d c with
    | ok a c₁ =>
        rw [bind_of_ok hda] at h
        exact (hd.found hda).trans ((hk a).failed h)
    | error fault' c₁ =>
        rw [bind_of_error hda] at h
        cases h
        exact hd.failed hda

theorem ite {P : Prop} [Decidable P] {d e : Decoder α} (hd : Advances d) (he : Advances e) :
    Advances (if P then d else e) := by
  split
  · exact hd
  · exact he

/-- A number that does not end is gone through all the same. -/
theorem varuint : Advances varuint where
  found _ _ _ := Decided.varuint.reaches
  failed c c' fault h := by
    obtain ⟨-, rfl⟩ := Decided.varuintFrom_error h
    exact ⟨c.rest, (List.append_nil _).symm, rfl⟩

/-- A number that is too large a count has been read all the same. -/
theorem count : Advances count := by
  refine varuint.bind fun v => ⟨fun c c' n h => ?_, fun c c' fault h => ?_⟩
  · split at h
    · cases h
      exact .refl c
    · cases h
  · split at h
    · cases h
    · cases h
      exact .refl c

/-- Bytes that are not a text have been read all the same. -/
theorem text (n : Nat) : Advances (text n) := by
  have hslice : Advances (slice n) := (KeepsPlace.slice n).advances (.slice n)
  refine position.bind fun offset => hslice.bind fun bytes => ?_
  split
  · exact pure _
  · exact throw _

theorem string? : Advances string? :=
  varuint.bind fun _ => ite (pure none) ((text _).bind fun _ => pure _)

end Advances

/-! ## One operation after the other -/

/-- The operations of a reader. -/
inductive Operation : Type 1 where
  | byte
  | slice (n : Nat)
  | fixed (α : Type) [FixedWidth α]
  | array (α : Type) [FixedWidth α] (count : Nat)
  | varuint
  | count
  | string

/-- The cursor after the decoder, whether it has found a value or failed. -/
def after (d : Decoder α) (c : Cursor) : Cursor :=
  match d c with
  | .ok _ c' => c'
  | .error _ c' => c'

theorem Advances.reaches_after {d : Decoder α} (hd : Advances d) (c : Cursor) :
    c.Reaches (d.after c) := by
  unfold after
  split
  · next h => exact hd.found h
  · next h => exact hd.failed h

namespace Operation

/-- Where an operation leaves the reader. -/
def next : Operation → Cursor → Cursor
  | byte => Decoder.byte.after
  | slice n => (Decoder.slice n).after
  | fixed α => (Decoder.fixed α).after
  | array α n => (Decoder.array α n).after
  | varuint => Decoder.varuint.after
  | count => Decoder.count.after
  | string => Decoder.string?.after

/-- The places that a reader comes to, from where it is, by operations one after the other. -/
def places (c : Cursor) (ops : List Operation) : List Cursor :=
  ops.scanl (fun c op => op.next c) c

theorem reaches_next (op : Operation) (c : Cursor) : c.Reaches (op.next c) := by
  cases op with
  | byte => exact (KeepsPlace.byte.advances .byte).reaches_after c
  | slice n => exact ((KeepsPlace.slice n).advances (.slice n)).reaches_after c
  | fixed α => exact ((KeepsPlace.fixed α).advances .fixed).reaches_after c
  | array α n => exact ((KeepsPlace.array α n).advances (.array n)).reaches_after c
  | varuint => exact Advances.varuint.reaches_after c
  | count => exact Advances.count.reaches_after c
  | string => exact Advances.string?.reaches_after c

theorem places_cons (c : Cursor) (op : Operation) (ops : List Operation) :
    places c (op :: ops) = c :: places (op.next c) ops := List.scanl_cons

theorem reaches_of_mem_places {c c' : Cursor} {ops : List Operation} (h : c' ∈ places c ops) :
    c.Reaches c' := by
  induction ops generalizing c with
  | nil =>
      rw [List.mem_singleton.mp h]
      exact .refl c
  | cons op ops ih =>
      rw [places_cons, List.mem_cons] at h
      rcases h with rfl | h
      · exact .refl c'
      · exact (op.reaches_next c).trans (ih h)

theorem pairwise_places (c : Cursor) (ops : List Operation) :
    (places c ops).Pairwise Cursor.Reaches := by
  induction ops generalizing c with
  | nil => exact List.pairwise_singleton _ _
  | cons op ops ih =>
      rw [places_cons, List.pairwise_cons]
      exact ⟨fun c' h => (op.reaches_next c).trans (reaches_of_mem_places h), ih (op.next c)⟩

end Operation

/-! ## Many values at once -/

/-- Both ways read words one after the other, so each finds what the other has found. -/
theorem array_eq_ok_iff [FixedWidth α] {n : Nat} {c c' : Cursor} {xs : List α}
    (hsize : c.remaining < UInt64.size) :
    array α n c = .ok xs c' ↔ times n (fixed α) c = .ok xs c' := by
  constructor
  · intro h
    obtain ⟨bytes, hform, hpast⟩ := (Reads.array n).sound h
    exact (Reads.fixed.times n).complete hform hpast hsize
  · intro h
    obtain ⟨bytes, hform, hpast⟩ := (Reads.fixed.times n).sound h
    exact (Reads.array n).complete hform hpast hsize

/-- **Reading at once and one by one.** From every place of an image, an array of words is found if
and only if as many words are found one after the other, and then it consists of these and ends
where they end. A slice, a word or an array that is not there leaves the reader where it was. And
whatever operations a reader is given, failing ones included, it never goes back and never gets
past the end: it stays at places of the image. -/
theorem bulk_reads_agree (image : Bytes) (hsize : image.length < UInt64.size) {c : Cursor}
    (hc : c.Within image) :
    (∀ (α : Type) [FixedWidth α] (n : Nat) (xs : List α) (c' : Cursor),
      array α n c = .ok xs c' ↔ times n (fixed α) c = .ok xs c') ∧
    (∀ n, KeepsPlace (slice n)) ∧
    (∀ (α : Type) [FixedWidth α], KeepsPlace (fixed α)) ∧
    (∀ (α : Type) [FixedWidth α] (n : Nat), KeepsPlace (array α n)) ∧
    ∀ ops : List Operation,
      (Operation.places c ops).Pairwise (fun c₁ c₂ => c₁.position ≤ c₂.position) ∧
      ∀ c' ∈ Operation.places c ops,
        c'.position ≤ image.length ∧ c'.rest = image.drop c'.position := by
  have hlength := hc.position_add_remaining
  refine ⟨fun α _ n xs c' => array_eq_ok_iff (by omega), .slice, .fixed, .array, fun ops => ?_⟩
  refine ⟨(Operation.pairwise_places c ops).imp Cursor.Reaches.position_le, fun c' h => ?_⟩
  -- what is reached from a place of the image is a place of the image
  have hwithin := (Operation.reaches_of_mem_places h).within hc
  have hlength' := hwithin.position_add_remaining
  exact ⟨by omega, hwithin.rest_eq_drop⟩

/-- Two words of two bytes are there, and `2 ^ 61` words of eight bytes are not, whose size takes 65
bits. Of four operations only the second finds something, and the third gets to the end. -/
theorem bulk_reads_agree_five_bytes :
    times 2 (fixed UInt16) (.start [1, 0, 2, 0, 9]) = .ok [1, 2] ⟨4, [9]⟩ ∧
    (∀ xs c', times (2 ^ 61) (fixed UInt64) (.start [1, 0, 2, 0, 9]) ≠ .ok xs c') ∧
    (Operation.places (.start [1, 0, 2, 0, 9]) [.fixed UInt64, .byte, .varuint, .byte]).map
      Cursor.position = [0, 0, 1, 5, 5] ∧
    ∀ c ∈ Operation.places (.start [1, 0, 2, 0, 9]) [.fixed UInt64, .byte, .varuint, .byte],
      c.position ≤ 5 ∧ c.rest = [1, 0, 2, 0, 9].drop c.position := by
  obtain ⟨hagree, -, -, -, hplaces⟩ := bulk_reads_agree [1, 0, 2, 0, 9] (by decide)
    (.start [1, 0, 2, 0, 9])
  refine ⟨(hagree UInt16 2 _ _).mp rfl, fun xs c' h => ?_, rfl, (hplaces _).2⟩
  have harray := (hagree UInt64 (2 ^ 61) xs c').mpr h
  cases harray

end Decoder

end LuaBytecode
