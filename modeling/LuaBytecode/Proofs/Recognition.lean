import Mathlib
import LuaBytecode.Chunk.Decode
import LuaBytecode.Proofs.Format
import LuaBytecode.Proofs.Words

/-! # Decoding recognises the format

A decoder reads a form when it succeeds exactly on the bytes of that form,
whatever follows them. This is shown for the decoder of each part, from bytes up
to chunks, and each proof uses those of its parts only.
-/

namespace LuaBytecode

/-- The second cursor lies behind the first by the given bytes. -/
structure Cursor.Past (c : Cursor) (bytes : Bytes) (c' : Cursor) : Prop where
  rest : c.rest = bytes ++ c'.rest
  position : c'.position = c.position + bytes.length

theorem Cursor.Past.refl (c : Cursor) : c.Past [] c := ⟨rfl, rfl⟩

theorem Cursor.Past.trans {c c' c'' : Cursor} {x y : Bytes} (h : c.Past x c')
    (h' : c'.Past y c'') : c.Past (x ++ y) c'' where
  rest := by rw [h.rest, h'.rest, List.append_assoc]
  position := by rw [h'.position, h.position, List.length_append, Nat.add_assoc]

theorem Cursor.Past.split {c c' : Cursor} {x y : Bytes} (h : c.Past (x ++ y) c') :
    ∃ c₁ : Cursor, c.Past x c₁ ∧ c₁.Past y c' := by
  refine ⟨⟨c.position + x.length, y ++ c'.rest⟩, ⟨?_, rfl⟩, ⟨rfl, ?_⟩⟩
  · rw [h.rest, List.append_assoc]
  · rw [h.position, List.length_append, ← Nat.add_assoc]

theorem Cursor.Past.remaining_eq {c c' : Cursor} {bytes : Bytes} (h : c.Past bytes c') :
    c.remaining = bytes.length + c'.remaining := by
  unfold Cursor.remaining
  rw [h.rest, List.length_append]

namespace Format

/-- One form after another, which may depend on the value of the first. -/
def Then {α β : Type} (first : Form α) (next : α → Form β) : Form β := fun b bytes =>
  ∃ a x y, first a x ∧ bytes = x ++ y ∧ next a b y

/-- No bytes at all stand for one value. -/
def Nothing {α : Type} (a : α) : Form α := fun b bytes => b = a ∧ bytes = []

/-- A list of a known length. -/
def Repeated {α : Type} (n : Nat) (form : Form α) : Form (List α) := fun xs bytes =>
  xs.length = n ∧ Sequence form xs bytes

end Format

open Format

namespace Decoder

variable {α β : Type}

theorem bind_eq_ok_iff {d : Decoder α} {k : α → Decoder β} {c c' : Cursor} {b : β} :
    (d >>= k) c = .ok b c' ↔ ∃ a c₁, d c = .ok a c₁ ∧ k a c₁ = .ok b c' := by
  show EStateM.bind d k c = .ok b c' ↔ _
  unfold EStateM.bind
  cases h : d c with
  | ok a c₁ => simp
  | error fault c₁ => simp

/-- The decoder takes off the front what is in the form, and finds it wherever it
stands. Images hold fewer than `2 ^ 64` bytes. -/
structure Reads (d : Decoder α) (form : Form α) : Prop where
  sound : ∀ {c c' : Cursor} {a : α}, d c = .ok a c' →
    ∃ bytes, form a bytes ∧ c.Past bytes c'
  complete : ∀ {c c' : Cursor} {a : α} {bytes : Bytes}, form a bytes →
    c.Past bytes c' → c.remaining < UInt64.size → d c = .ok a c'

namespace Reads

/-! ## Combining decoders -/

theorem congr {d : Decoder α} {form form' : Form α} (h : Reads d form)
    (hiff : ∀ a bytes, form a bytes ↔ form' a bytes) : Reads d form' where
  sound hd := by
    obtain ⟨bytes, hform, hpast⟩ := h.sound hd
    exact ⟨bytes, (hiff _ _).mp hform, hpast⟩
  complete hform := h.complete ((hiff _ _).mpr hform)

theorem pure (a : α) : Reads (pure a) (Nothing a) where
  sound hd := by
    cases hd
    exact ⟨[], ⟨rfl, rfl⟩, .refl _⟩
  complete := by
    rintro c c' _ _ ⟨rfl, rfl⟩ hpast _
    have hc : c = c' := by
      obtain ⟨position, rest⟩ := c
      obtain ⟨position', rest'⟩ := c'
      obtain ⟨hrest, hposition⟩ := hpast
      simp_all
    rw [hc]
    rfl

theorem bind {d : Decoder α} {k : α → Decoder β} {first : Form α}
    {next : α → Form β} (hd : Reads d first) (hk : ∀ a, Reads (k a) (next a)) :
    Reads (d >>= k) (Then first next) where
  sound h := by
    obtain ⟨a, c₁, hda, hka⟩ := bind_eq_ok_iff.mp h
    obtain ⟨x, hx, hpast⟩ := hd.sound hda
    obtain ⟨y, hy, hpast'⟩ := (hk a).sound hka
    exact ⟨x ++ y, ⟨a, x, y, hx, rfl, hy⟩, hpast.trans hpast'⟩
  complete := by
    rintro c c' b _ ⟨a, x, y, hx, rfl, hy⟩ hpast hsize
    obtain ⟨c₁, hpast₁, hpast₂⟩ := hpast.split
    have hremaining := hpast₁.remaining_eq
    exact bind_eq_ok_iff.mpr
      ⟨a, c₁, hd.complete hx hpast₁ hsize, (hk a).complete hy hpast₂ (by omega)⟩

theorem throw (fault : DecodeFault) :
    Reads (MonadExcept.throw fault : Decoder α) (fun _ _ => False) where
  sound hd := by cases hd
  complete h := h.elim

theorem ite {P : Prop} [Decidable P] {d e : Decoder α} {form form' : Form α}
    (hd : Reads d form) (he : Reads e form') :
    Reads (if P then d else e)
      (fun a bytes => P ∧ form a bytes ∨ ¬P ∧ form' a bytes) := by
  by_cases h : P
  · simpa [h] using hd
  · simpa [h] using he

theorem times {d : Decoder α} {form : Form α} (hd : Reads d form) :
    ∀ n, Reads (times n d) (Repeated n form)
  | 0 => by
      refine (Reads.pure []).congr fun xs bytes => ⟨?_, ?_⟩
      · rintro ⟨rfl, rfl⟩
        exact ⟨rfl, .nil⟩
      · rintro ⟨hlength, hseq⟩
        cases hseq with
        | nil => exact ⟨rfl, rfl⟩
        | cons => cases hlength
  | n + 1 => by
      refine (hd.bind fun head => (times hd n).bind fun tail =>
        Reads.pure (head :: tail)).congr fun xs bytes => ⟨?_, ?_⟩
      · rintro ⟨head, x, _, hx, rfl, tail, y, _, ⟨rfl, hy⟩, rfl, rfl, rfl⟩
        rw [List.append_nil]
        exact ⟨rfl, .cons hx hy⟩
      · rintro ⟨hlength, hseq⟩
        cases hseq with
        | nil => cases hlength
        | @cons head tail x y hx hy =>
            have htail : tail.length = n := Nat.succ.inj hlength
            exact ⟨head, x, y, hx, rfl,
              tail, y, [], ⟨htail, hy⟩, y.append_nil.symm, rfl, rfl⟩

/-! ## Bytes and words -/

theorem byte : Reads byte (fun b bytes => bytes = [b]) where
  sound := by
    rintro ⟨position, _ | ⟨b, rest⟩⟩ c' a hd
    · cases hd
    · cases hd
      exact ⟨[b], rfl, rfl, rfl⟩
  complete := by
    rintro ⟨position, rest⟩ ⟨position', rest'⟩ b _ rfl ⟨hrest, hposition⟩ _
    simp only [List.cons_append, List.nil_append, List.length_singleton] at hrest hposition
    rw [hrest, hposition]
    rfl

theorem slice (n : Nat) :
    Reads (slice n) (fun xs bytes => xs.length = n ∧ bytes = xs) where
  sound := by
    intro c c' a hd
    unfold Decoder.slice at hd
    split at hd
    · next hle =>
        cases hd
        have hlength : (c.rest.take n).length = n := by
          rw [List.length_take]
          exact Nat.min_eq_left hle
        refine ⟨c.rest.take n, ⟨hlength, rfl⟩, ?_, ?_⟩
        · exact (List.take_append_drop n c.rest).symm
        · rw [hlength]
    · cases hd
  complete := by
    rintro ⟨position, rest⟩ ⟨position', rest'⟩ _ bytes ⟨rfl, rfl⟩ ⟨hrest, hposition⟩ _
    dsimp only at hrest hposition
    have hle : bytes.length ≤ (bytes ++ rest').length := by simp
    unfold Decoder.slice Cursor.remaining
    rw [hrest, hposition, if_pos hle, List.take_left, List.drop_left]

theorem fixed [FixedWidth α] : Reads (fixed α) (Word α) := by
  refine ((slice (FixedWidth.width α)).bind fun bytes =>
    Reads.pure (FixedWidth.decode α bytes)).congr fun a bytes => ⟨?_, ?_⟩
  · rintro ⟨word, _, _, ⟨hlength, rfl⟩, rfl, rfl, rfl⟩
    rw [List.append_nil]
    exact (FixedWidth.encode_decode hlength).symm
  · rintro rfl
    exact ⟨FixedWidth.encode a, _, [], ⟨FixedWidth.length_encode a, rfl⟩,
      (List.append_nil _).symm, (FixedWidth.decode_encode a).symm, rfl⟩

theorem sequence_word_iff [FixedWidth α] {xs : List α} {bytes : Bytes} :
    Sequence (Word α) xs bytes ↔ bytes = xs.flatMap FixedWidth.encode := by
  constructor
  · intro h
    induction h with
    | nil => rfl
    | cons hhead _ ih => rw [List.flatMap_cons, hhead, ih]
  · rintro rfl
    induction xs with
    | nil => exact .nil
    | cons a rest ih => exact .cons rfl ih

/-- The check that the size of an array does not overflow never refuses one that
is there: an image is not that long. -/
theorem array [FixedWidth α] (n : Nat) :
    Reads (array α n) (Repeated n (Word α)) where
  sound := by
    intro c c' xs hd
    unfold Decoder.array at hd
    split at hd
    · obtain ⟨word, c₁, hslice, hpure⟩ := bind_eq_ok_iff.mp hd
      cases hpure
      obtain ⟨bytes, ⟨hlength, rfl⟩, hpast⟩ := (slice _).sound hslice
      refine ⟨bytes, ⟨FixedWidth.length_decodeList _ _, ?_⟩, hpast⟩
      exact sequence_word_iff.mpr (FixedWidth.flatMap_encode_decodeList hlength).symm
    · cases hd
  complete := by
    rintro c c' xs bytes ⟨rfl, hseq⟩ hpast hsize
    have hbytes := sequence_word_iff.mp hseq
    have hlength : bytes.length = xs.length * FixedWidth.width α := by
      rw [hbytes, FixedWidth.length_flatMap_encode]
    -- the words are part of the image, so the size of all of them is no larger
    have hremaining := hpast.remaining_eq
    have hlimit : xs.length * FixedWidth.width α ≤ sizeLimit := by
      unfold sizeLimit
      omega
    unfold Decoder.array
    rw [if_pos hlimit]
    refine bind_eq_ok_iff.mpr ⟨bytes, c', (slice _).complete ⟨hlength, rfl⟩ hpast hsize, ?_⟩
    rw [hbytes, FixedWidth.decodeList_flatMap_encode]
    rfl

/-! ## Numbers -/

/-- Adding a group to a number that is known modulo `2 ^ 64`. -/
theorem ofNat_mul_add_group (n : Nat) (b : UInt8) :
    UInt64.ofNat n * 128 + (b % 128).toUInt64
      = UInt64.ofNat (n * 128 + b.toNat % 128) := by
  have hgroup : (b % 128).toUInt64 = UInt64.ofNat (b.toNat % 128) := by
    have hlt : b.toNat % 128 < 2 ^ 64 := by omega
    apply UInt64.toNat_inj.mp
    rw [UInt8.toNat_toUInt64, UInt8.toNat_mod, UInt64.toNat_ofNat']
    exact (Nat.mod_eq_of_lt hlt).symm
  rw [hgroup, UInt64.ofNat_add, UInt64.ofNat_mul]
  rfl

theorem varuintFrom_sound {bytes : Bytes} {n position : Nat} {v : UInt64} {c : Cursor}
    (h : varuintFrom (UInt64.ofNat n) position bytes = .ok v c) :
    ∃ high last, (∀ b ∈ high, b < 128) ∧ 128 ≤ last ∧
      v = UInt64.ofNat ((high ++ [last]).foldl (fun n b => n * 128 + b.toNat % 128) n) ∧
      Cursor.Past ⟨position, bytes⟩ (high ++ [last]) c := by
  -- the number read so far is kept exactly, though the decoder has it modulo 2 ^ 64
  induction bytes generalizing n position with
  | nil => cases h
  | cons b rest ih =>
      rw [varuintFrom, ofNat_mul_add_group] at h
      split at h
      · next hb =>
          obtain ⟨high, last, hhigh, hlast, hv, hrest, hposition⟩ := ih h
          refine ⟨b :: high, last, List.forall_mem_cons.mpr ⟨hb, hhigh⟩, hlast, hv, ?_, ?_⟩
          · exact congrArg (b :: ·) hrest
          · rw [hposition, List.cons_append, List.length_cons]
            show position + 1 + _ = position + (_ + 1)
            omega
      · next hb =>
          cases h
          exact ⟨[], b, by simp, UInt8.not_lt.mp hb, rfl, rfl, rfl⟩

theorem varuintFrom_complete {high : Bytes} {last : UInt8} (hhigh : ∀ b ∈ high, b < 128)
    (hlast : 128 ≤ last) (n position : Nat) (rest : Bytes) :
    varuintFrom (UInt64.ofNat n) position (high ++ last :: rest)
      = .ok (UInt64.ofNat ((high ++ [last]).foldl (fun n b => n * 128 + b.toNat % 128) n))
          ⟨position + high.length + 1, rest⟩ := by
  induction high generalizing n position with
  | nil =>
      rw [List.nil_append, varuintFrom, ofNat_mul_add_group,
        if_neg (UInt8.not_lt.mpr hlast)]
      rfl
  | cons b high ih =>
      obtain ⟨hb, hhigh⟩ := List.forall_mem_cons.mp hhigh
      rw [List.cons_append, varuintFrom, ofNat_mul_add_group, if_pos hb, ih hhigh,
        List.length_cons, Nat.add_right_comm position 1, Nat.add_assoc position]
      rfl

theorem varuint : Reads varuint Varuint where
  sound := by
    intro c c' v hd
    obtain ⟨high, last, hhigh, hlast, hv, hpast⟩ := varuintFrom_sound (n := 0) hd
    exact ⟨high ++ [last], ⟨high, last, rfl, hhigh, hlast, hv⟩, hpast⟩
  complete := by
    rintro ⟨position, rest⟩ ⟨position', rest'⟩ v _ ⟨high, last, rfl, hhigh, hlast, rfl⟩
      ⟨hrest, hposition⟩ _
    dsimp only at hrest hposition
    rw [hrest, hposition, List.append_assoc, List.length_append, ← Nat.add_assoc]
    exact varuintFrom_complete hhigh hlast 0 position rest'

/-! ## Counts and texts -/

theorem count_eq_ok_iff {c c' : Cursor} {n : Nat} :
    count c = .ok n c' ↔
      ∃ v, Decoder.varuint c = .ok v c' ∧ n = v.toNat ∧ n ≤ c'.remaining := by
  refine bind_eq_ok_iff.trans ⟨?_, ?_⟩
  · rintro ⟨v, c₁, hv, h⟩
    split at h
    · next hle =>
        cases h
        exact ⟨v, hv, rfl, hle⟩
    · cases h
  · rintro ⟨v, hv, rfl, hle⟩
    exact ⟨v, c', hv, if_pos hle⟩

/-- The check on a count never refuses what is there, because what it counts is
at least as long. -/
theorem count_bind {k : Nat → Decoder β} {next : Nat → Form β}
    (hk : ∀ n, Reads (k n) (next n))
    (hnext : ∀ {n b bytes}, next n b bytes → n ≤ bytes.length) :
    Reads (count >>= k) (Then Count next) where
  sound h := by
    obtain ⟨n, c₁, hcount, hkn⟩ := bind_eq_ok_iff.mp h
    obtain ⟨v, hv, rfl, -⟩ := count_eq_ok_iff.mp hcount
    obtain ⟨x, hx, hpast⟩ := varuint.sound hv
    obtain ⟨y, hy, hpast'⟩ := (hk _).sound hkn
    exact ⟨x ++ y, ⟨v.toNat, x, y, ⟨v, hx, rfl⟩, rfl, hy⟩, hpast.trans hpast'⟩
  complete := by
    rintro c c' b _ ⟨_, x, y, ⟨v, hx, rfl⟩, rfl, hy⟩ hpast hsize
    obtain ⟨c₁, hpast₁, hpast₂⟩ := hpast.split
    have hremaining₁ := hpast₁.remaining_eq
    have hremaining₂ := hpast₂.remaining_eq
    have hle := hnext hy
    have hcount : count c = .ok v.toNat c₁ :=
      count_eq_ok_iff.mpr ⟨v, varuint.complete hx hpast₁ hsize, rfl, by omega⟩
    exact bind_eq_ok_iff.mpr ⟨v.toNat, c₁, hcount, (hk _).complete hy hpast₂ (by omega)⟩

theorem counted {d : Decoder α} {form : Form α} (hd : Reads d form)
    (hform : ∀ {a bytes}, form a bytes → bytes ≠ []) :
    Reads (counted d) (Counted form) := by
  refine (count_bind hd.times ?_).congr fun xs bytes => ⟨?_, ?_⟩
  · rintro n xs bytes ⟨rfl, hseq⟩
    exact hseq.length_le hform
  · rintro ⟨_, size, items, hsize, rfl, rfl, hitems⟩
    exact ⟨size, items, hsize, hitems, rfl⟩
  · rintro ⟨size, items, hsize, hitems, rfl⟩
    exact ⟨xs.length, size, items, hsize, rfl, rfl, hitems⟩

/-- What is known of the place may only show in faults. -/
theorem position_bind {k : Nat → Decoder α} {form : Form α}
    (hk : ∀ n, Reads (k n) form) : Reads (position >>= k) form where
  sound {c} _ _ h := (hk c.position).sound h
  complete {c} _ _ _ := (hk c.position).complete

/-- What is done with the bytes of a text once they are there. -/
theorem of_toText? {word : Bytes} {fault : DecodeFault} {d : Decoder String}
    (hsome : ∀ s, Bytes.toText? word = some s → d = Pure.pure s)
    (hnone : Bytes.toText? word = none → d = MonadExcept.throw fault) :
    Reads d (fun s bytes => word = Bytes.ofText s ∧ bytes = []) := by
  cases hs : Bytes.toText? word with
  | none =>
      rw [hnone hs]
      refine (throw fault).congr fun s bytes => ⟨False.elim, ?_⟩
      rintro ⟨hword, -⟩
      rw [Bytes.toText?_eq_some_iff.mpr hword] at hs
      cases hs
  | some s' =>
      rw [hsome s' hs]
      obtain rfl := Bytes.toText?_eq_some_iff.mp hs
      refine (Reads.pure s').congr fun s bytes => ⟨?_, ?_⟩
      · rintro ⟨rfl, rfl⟩
        exact ⟨rfl, rfl⟩
      · rintro ⟨hword, rfl⟩
        rw [Bytes.toText?_eq_some_iff.mpr hword] at hs
        exact ⟨Option.some.inj hs, rfl⟩

theorem text (n : Nat) :
    Reads (text n) (fun s bytes => s.utf8ByteSize = n ∧ bytes = Bytes.ofText s) := by
  refine (position_bind fun offset => (slice n).bind fun word =>
    of_toText? (fun s hs => by rw [hs]) fun hs => by rw [hs]).congr fun s bytes => ⟨?_, ?_⟩
  · rintro ⟨_, word, _, ⟨rfl, rfl⟩, rfl, rfl, rfl⟩
    exact ⟨rfl, List.append_nil _⟩
  · rintro ⟨rfl, rfl⟩
    exact ⟨_, Bytes.ofText s, [], ⟨rfl, rfl⟩, (List.append_nil _).symm, rfl, rfl⟩

theorem string? : Reads string? Text := by
  refine (varuint.bind fun v => ite (Reads.pure none)
    ((text (v.toNat - 1)).bind fun s => Reads.pure (some s))).congr
    fun s bytes => ⟨?_, ?_⟩
  · rintro ⟨v, size, _, hsize, rfl, ⟨hle, rfl, rfl⟩ | ⟨hlt, hpresent⟩⟩
    · rw [List.append_nil]
      exact .absent hle ⟨v, hsize, rfl⟩
    · obtain ⟨s, content, _, ⟨hlength, rfl⟩, rfl, rfl, rfl⟩ := hpresent
      have hcount : s.utf8ByteSize + 1 = v.toNat := by omega
      -- a size above 1 leaves at least one byte
      have hne : s ≠ "" := by
        rintro rfl
        have hempty : "".utf8ByteSize = 0 := rfl
        omega
      rw [List.append_nil]
      exact .present hne ⟨v, hsize, hcount⟩
  · intro h
    cases h with
    | absent hle hsize =>
        obtain ⟨v, hv, rfl⟩ := hsize
        exact ⟨v, bytes, [], hv, bytes.append_nil.symm, .inl ⟨hle, rfl, rfl⟩⟩
    | @present s size hne hsize =>
        obtain ⟨v, hv, hcount⟩ := hsize
        have hpos : s.utf8ByteSize ≠ 0 := fun h => hne (String.utf8ByteSize_eq_zero_iff.mp h)
        refine ⟨v, size, Bytes.ofText s, hv, rfl, .inr ⟨by omega, ?_⟩⟩
        exact ⟨s, Bytes.ofText s, [], ⟨by omega, rfl⟩, (Bytes.ofText s).append_nil.symm, rfl, rfl⟩

end Reads

end Decoder

open Decoder

/-! ## Parts of a function -/

theorem Constant.decodeInt_canonical : decodeInt .canonical = fixed Int64 :=
  if_neg (by decide)

theorem Constant.decodeFloat_canonical : decodeFloat .canonical = fixed Binary64 :=
  if_neg (by decide)

theorem Constant.reads_decode : Reads (decode .canonical) Const := by
  unfold decode
  rw [decodeInt_canonical, decodeFloat_canonical]
  refine Reads.congr (.position_bind fun offset => .bind .byte fun tag =>
    .ite (.pure _) <| .ite (.pure _) <| .ite (.pure _) <|
    .ite (.bind .fixed fun i => .pure _) <| .ite (.bind .fixed fun f => .pure _) <|
    .ite (.bind .string? fun s => .pure _) (.throw _)) fun k bytes => ⟨?_, ?_⟩
  · -- the tags are told apart in the order in which the decoder asks for them
    rintro ⟨tag, _, content, rfl, rfl, hcontent⟩
    rcases hcontent with ⟨htag, rfl, rfl⟩ | ⟨-, hcontent⟩
    · cases htag
      exact .nil
    rcases hcontent with ⟨htag, rfl, rfl⟩ | ⟨-, hcontent⟩
    · cases htag
      exact .false
    rcases hcontent with ⟨htag, rfl, rfl⟩ | ⟨-, hcontent⟩
    · cases htag
      exact .true
    rcases hcontent with ⟨htag, i, word, _, hword, rfl, rfl, rfl⟩ | ⟨-, hcontent⟩
    · cases htag
      rw [List.append_nil]
      exact .int hword
    rcases hcontent with ⟨htag, f, word, _, hword, rfl, rfl, rfl⟩ | ⟨-, hcontent⟩
    · cases htag
      rw [List.append_nil]
      exact .float hword
    rcases hcontent with ⟨htag, stored, text, _, htext, rfl, rfl, rfl⟩ | ⟨-, hcontent⟩
    · rw [List.append_nil]
      refine .str ?_ htext
      rcases htag with htag | htag
      · exact .inl (congrArg ConstantTag.byte htag)
      · exact .inr (congrArg ConstantTag.byte htag)
    · exact hcontent.elim
  · intro h
    cases h with
    | nil => exact ⟨0x00, _, [], rfl, rfl, .inl ⟨rfl, rfl, rfl⟩⟩
    | false => exact ⟨0x01, _, [], rfl, rfl, .inr ⟨nofun, .inl ⟨rfl, rfl, rfl⟩⟩⟩
    | true => exact ⟨0x11, _, [], rfl, rfl, .inr ⟨nofun, .inr ⟨nofun, .inl ⟨rfl, rfl, rfl⟩⟩⟩⟩
    | @int i word hword =>
        refine ⟨0x03, _, word, rfl, rfl, .inr ⟨nofun, .inr ⟨nofun, .inr ⟨nofun, .inl ⟨rfl, ?_⟩⟩⟩⟩⟩
        exact ⟨i, word, [], hword, word.append_nil.symm, rfl, rfl⟩
    | @float f word hword =>
        refine ⟨0x13, _, word, rfl, rfl, .inr ⟨nofun, .inr ⟨nofun, .inr ⟨nofun, .inr ⟨nofun,
          .inl ⟨rfl, ?_⟩⟩⟩⟩⟩⟩
        exact ⟨f, word, [], hword, word.append_nil.symm, rfl, rfl⟩
    | @str tag stored text htag htext =>
        have hstored : Then Text (fun s => Nothing (Constant.str (s.getD "")))
            (.str (stored.getD "")) text :=
          ⟨stored, text, [], htext, text.append_nil.symm, rfl, rfl⟩
        refine ⟨tag, _, text, rfl, rfl, ?_⟩
        rcases htag with rfl | rfl
        · exact .inr ⟨nofun, .inr ⟨nofun, .inr ⟨nofun, .inr ⟨nofun, .inr ⟨nofun,
            .inl ⟨.inl rfl, hstored⟩⟩⟩⟩⟩⟩
        · exact .inr ⟨nofun, .inr ⟨nofun, .inr ⟨nofun, .inr ⟨nofun, .inr ⟨nofun,
            .inl ⟨.inr rfl, hstored⟩⟩⟩⟩⟩⟩

theorem UpvalueSource.reads_decode : Reads decode Upvalue := by
  refine Reads.congr (.bind .byte fun flag => .bind .byte fun index =>
    .bind .byte fun kind => .pure _) fun u bytes => ⟨?_, ?_⟩
  · rintro ⟨flag, _, _, rfl, rfl, index, _, _, rfl, rfl, kind, _, _, rfl, rfl, rfl, rfl⟩
    exact ⟨flag, rfl, rfl⟩
  · rintro ⟨flag, hflag, rfl⟩
    obtain ⟨inStack, index, kind⟩ := u
    cases hflag
    exact ⟨flag, _, _, rfl, rfl, index, _, _, rfl, rfl, kind, _, _, rfl, rfl, rfl, rfl⟩

theorem LineCheckpoint.reads_decode : Reads decode Checkpoint := by
  refine Reads.congr (.bind .varuint fun pc => .bind .varuint fun line => .pure _)
    fun l bytes => ⟨?_, ?_⟩
  · rintro ⟨pc, x, _, hx, rfl, line, y, _, hy, rfl, rfl, rfl⟩
    exact ⟨x, y, hx, hy, by rw [List.append_nil]⟩
  · rintro ⟨x, y, hx, hy, rfl⟩
    exact ⟨l.pc, x, y, hx, rfl, l.line, y, [], hy, y.append_nil.symm, rfl, rfl⟩

theorem DebugInfo.reads_decodeName : Reads decodeName Name := by
  refine Reads.congr (.bind .string? fun s => .pure _) fun name bytes => ⟨?_, ?_⟩
  · rintro ⟨stored, text, _, htext, rfl, rfl, rfl⟩
    rw [List.append_nil]
    exact ⟨stored, htext, rfl⟩
  · rintro ⟨stored, htext, rfl⟩
    exact ⟨stored, bytes, [], htext, bytes.append_nil.symm, rfl, rfl⟩

theorem LocalVariable.reads_decode : Reads decode Local := by
  refine Reads.congr (.bind DebugInfo.reads_decodeName fun name =>
    .bind .varuint fun startPc => .bind .varuint fun endPc => .pure _)
    fun v bytes => ⟨?_, ?_⟩
  · rintro ⟨name, x, _, hx, rfl, startPc, y, _, hy, rfl, endPc, z, _, hz, rfl, rfl, rfl⟩
    exact ⟨x, y, z, hx, hy, hz, by rw [List.append_nil, List.append_assoc]⟩
  · rintro ⟨x, y, z, hx, hy, hz, rfl⟩
    exact ⟨v.name, x, y ++ z, hx, List.append_assoc _ _ _, v.startPc, y, z, hy, rfl,
      v.endPc, z, [], hz, z.append_nil.symm, rfl, rfl⟩

theorem DebugInfo.reads_decode : Reads decode Debug := by
  refine Reads.congr (.count_bind (fun n => .bind (.slice n) fun deltas =>
    .bind (.counted LineCheckpoint.reads_decode Checkpoint.ne_nil) fun checkpoints =>
    .bind (.counted LocalVariable.reads_decode Local.ne_nil) fun locals =>
    .bind (.counted reads_decodeName Name.ne_nil) fun names => .pure _) ?_)
    fun d bytes => ⟨?_, ?_⟩
  · rintro n d _ ⟨deltas, _, y, ⟨rfl, rfl⟩, rfl, -⟩
    rw [List.length_append]
    exact Nat.le_add_right _ _
  · rintro ⟨_, size, _, hsize, rfl, deltas, _, _, ⟨rfl, rfl⟩, rfl, checkpoints, x, _, hx, rfl,
      locals, y, _, hy, rfl, names, z, _, hz, rfl, rfl, rfl⟩
    exact ⟨size, x, y, z, hsize, hx, hy, hz, by simp only [List.append_nil, List.append_assoc]⟩
  · rintro ⟨size, x, y, z, hsize, hx, hy, hz, rfl⟩
    refine ⟨d.lineDeltas.length, size, d.lineDeltas ++ (x ++ (y ++ z)), hsize,
      by simp only [List.append_assoc], ?_⟩
    exact ⟨d.lineDeltas, _, _, ⟨rfl, rfl⟩, rfl, d.checkpoints, x, _, hx, rfl,
      d.locals, y, _, hy, rfl, d.upvalueNames, z, [], hz, z.append_nil.symm, rfl, rfl⟩

/-! ## Functions -/

namespace Format

theorem sequence_and_iff {α : Type} {form : Form α} {P : α → Prop} {xs : List α}
    {bytes : Bytes} :
    Sequence (fun a bytes => form a bytes ∧ P a) xs bytes ↔
      Sequence form xs bytes ∧ ∀ a ∈ xs, P a := by
  constructor
  · intro h
    induction h with
    | nil => exact ⟨.nil, by simp⟩
    | cons hhead _ ih =>
        exact ⟨.cons hhead.1 ih.1, List.forall_mem_cons.mpr ⟨hhead.2, ih.2⟩⟩
  · rintro ⟨h, hP⟩
    induction h with
    | nil => exact .nil
    | cons hhead _ ih =>
        obtain ⟨ha, hrest⟩ := List.forall_mem_cons.mp hP
        exact .cons ⟨hhead, ha⟩ (ih hrest)

theorem counted_function_iff {enclosing : Option String} {levels : Nat}
    {ps : List Prototype} {bytes : Bytes} :
    Counted (fun p bytes => Function enclosing p bytes ∧ p.height < levels) ps bytes ↔
      (∃ size items, Count ps.length size ∧ Functions enclosing ps items ∧
        bytes = size ++ items) ∧ Prototype.heightList ps ≤ levels := by
  unfold Counted
  simp only [sequence_and_iff, ← functions_iff_sequence, Prototype.heightList_le_iff]
  constructor
  · rintro ⟨size, items, hsize, ⟨hitems, hlevels⟩, rfl⟩
    exact ⟨⟨size, items, hsize, hitems, rfl⟩, hlevels⟩
  · rintro ⟨⟨size, items, hsize, hitems, rfl⟩, hlevels⟩
    exact ⟨size, items, hsize, ⟨hitems, hlevels⟩, rfl⟩

end Format

/-- The levels that are still allowed bound the height of the tree. -/
theorem Prototype.reads_decode (levels : Nat) (enclosing : Option String) :
    Reads (decode .canonical levels enclosing)
      (fun p bytes => Function enclosing p bytes ∧ p.height < levels) := by
  induction levels generalizing enclosing with
  | zero =>
      refine (Reads.throw _).congr fun p bytes => ⟨False.elim, ?_⟩
      rintro ⟨-, hlevels⟩
      exact absurd hlevels (Nat.not_lt_zero _)
  | succ levels ih =>
      refine Reads.congr (.bind .string? fun stored => .bind .varuint fun lineDefined =>
        .bind .varuint fun lastLineDefined => .bind .byte fun paramCount =>
        .bind .byte fun varargFlag => .bind .byte fun stackSize =>
        .count_bind (fun n => .bind (.array n) fun code =>
        .bind (.counted Constant.reads_decode Const.ne_nil) fun constants =>
        .bind (.counted UpvalueSource.reads_decode Upvalue.ne_nil) fun upvalues =>
        .bind (.counted (ih _) fun h => h.1.ne_nil) fun protos =>
        .bind DebugInfo.reads_decode fun debug => .pure _) ?_) fun p bytes => ⟨?_, ?_⟩
      · rintro n p _ ⟨code, x, y, ⟨rfl, hcode⟩, rfl, -⟩
        have hlength := hcode.length_le instruction_ne_nil
        rw [List.length_append]
        omega
      · -- one field after the other, in the order in which they are stored
        intro h
        obtain ⟨stored, source, _, hsource, rfl, h⟩ := h
        obtain ⟨lineDefined, first, _, hfirst, rfl, h⟩ := h
        obtain ⟨lastLineDefined, last, _, hlast, rfl, h⟩ := h
        obtain ⟨paramCount, _, _, rfl, rfl, h⟩ := h
        obtain ⟨varargFlag, _, _, rfl, rfl, h⟩ := h
        obtain ⟨stackSize, _, _, rfl, rfl, h⟩ := h
        obtain ⟨_, size, _, hsize, rfl, h⟩ := h
        obtain ⟨code, words, _, ⟨rfl, hwords⟩, rfl, h⟩ := h
        obtain ⟨constants, consts, _, hconsts, rfl, h⟩ := h
        obtain ⟨upvalues, ups, _, hups, rfl, h⟩ := h
        obtain ⟨protos, nested, _, hnested, rfl, h⟩ := h
        obtain ⟨debug, info, _, hinfo, rfl, rfl, rfl⟩ := h
        obtain ⟨⟨number, items, hnumber, hitems, rfl⟩, hlevels⟩ := counted_function_iff.mp hnested
        refine ⟨?_, ?_⟩
        · have hcode : Counted (Word Instruction) code.toArray.toList (size ++ words) :=
            ⟨size, words, hsize, hwords, rfl⟩
          have h := Function.intro (p := ⟨stored.or enclosing, lineDefined, lastLineDefined,
            paramCount, varargFlag, stackSize, code.toArray, constants.toArray, upvalues, protos,
            debug⟩) hsource rfl hfirst hlast hcode hconsts hups hnumber hitems hinfo
          simpa only [List.append_assoc, List.append_nil, List.cons_append, List.nil_append] using h
        · rw [height]
          exact Nat.lt_succ_of_le hlevels
      · rintro ⟨h, hlevels⟩
        cases h with
        | @intro _ stored _ source first last _ consts ups number items info hsource heq
            hfirst hlast hcode hconsts hups hnumber hitems hinfo =>
            obtain ⟨size, words, hsize, hwords, rfl⟩ := hcode
            obtain ⟨_, lineDefined, lastLineDefined, paramCount, varargFlag, stackSize, ⟨code⟩,
              ⟨constants⟩, upvalues, protos, debug⟩ := p
            cases heq
            rw [height] at hlevels
            have hnested := counted_function_iff.mpr
              ⟨⟨number, items, hnumber, hitems, rfl⟩, Nat.le_of_lt_succ hlevels⟩
            refine ⟨stored, source, _, hsource, ?_, lineDefined, first, _, hfirst, rfl,
              lastLineDefined, last, _, hlast, rfl, paramCount, _, _, rfl, rfl,
              varargFlag, _, _, rfl, rfl, stackSize, _, _, rfl, rfl, _, size, _, hsize, rfl,
              code, words, _, ⟨rfl, hwords⟩, rfl, constants, consts, _, hconsts, rfl,
              upvalues, ups, _, hups, rfl, protos, _, _, hnested, rfl,
              debug, info, _, hinfo, rfl, rfl, rfl⟩
            simp only [List.append_assoc, List.append_nil, List.cons_append, List.nil_append]

/-! ## Chunks -/

theorem Header.reads_decode : Reads decode (fun h bytes => bytes = h.encode) := by
  refine Reads.congr (.bind .fixed fun magic => .bind .fixed fun version =>
    .bind .byte fun instructionSize => .bind .byte fun integerSize =>
    .bind .byte fun floatSize => .bind .fixed fun sanityInteger =>
    .bind .fixed fun sanityFloat => .pure _) fun h bytes => ⟨?_, ?_⟩
  · intro h
    obtain ⟨magic, _, _, rfl, rfl, h⟩ := h
    obtain ⟨version, _, _, rfl, rfl, h⟩ := h
    obtain ⟨instructionSize, _, _, rfl, rfl, h⟩ := h
    obtain ⟨integerSize, _, _, rfl, rfl, h⟩ := h
    obtain ⟨floatSize, _, _, rfl, rfl, h⟩ := h
    obtain ⟨sanityInteger, _, _, rfl, rfl, h⟩ := h
    obtain ⟨sanityFloat, _, _, rfl, rfl, rfl, rfl⟩ := h
    simp only [encode, List.append_assoc, List.append_nil, List.cons_append, List.nil_append]
  · rintro rfl
    obtain ⟨magic, version, instructionSize, integerSize, floatSize, sanityInteger,
      sanityFloat⟩ := h
    refine ⟨magic, _, _, rfl, ?_, version, _, _, rfl, rfl, instructionSize, _, _, rfl, rfl,
      integerSize, _, _, rfl, rfl, floatSize, _, _, rfl, rfl, sanityInteger, _, _, rfl, rfl,
      sanityFloat, _, _, rfl, rfl, rfl, rfl⟩
    simp only [encode, List.append_assoc, List.append_nil, List.cons_append, List.nil_append]

/-- The parts of a header that are checked make up the whole of it. -/
theorem Header.mismatch?_eq_none_iff {h : Header} :
    h.mismatch? = none ↔ h = .canonical := by
  constructor
  · intro hnone
    have hget : ∀ field ∈ fields, h.get field = canonical.get field := by
      intro field hfield
      have := List.find?_eq_none.mp hnone field hfield
      simpa using this
    obtain ⟨magic, version, instructionSize, integerSize, floatSize, sanityInteger,
      sanityFloat⟩ := h
    simp only [fields, List.forall_mem_cons, get, FieldValue.word.injEq,
      FieldValue.number.injEq] at hget
    obtain ⟨hmagic, hversion, hformat, hcheck, hinstruction, hinteger, hfloat, hsanityInteger,
      hsanityFloat, -⟩ := hget
    -- the three parts of the version word
    have hword : version.toNat = canonical.version.toNat := by
      simp only [versionNumber, format] at hversion hformat
      simp only [dataCheck, Nat.shiftRight_eq_div_pow] at hcheck
      omega
    rw [canonical, mk.injEq]
    exact ⟨UInt32.toNat_inj.mp hmagic, UInt64.toNat_inj.mp hword,
      UInt8.toNat_inj.mp hinstruction, UInt8.toNat_inj.mp hinteger, UInt8.toNat_inj.mp hfloat,
      congrArg UInt64.toInt64 (UInt64.toNat_inj.mp hsanityInteger), hsanityFloat⟩
  · rintro rfl
    decide

theorem Header.validate_eq_ok_iff {h : Header} :
    h.validate = .ok () ↔ h = .canonical := by
  unfold validate
  rw [← mismatch?_eq_none_iff]
  cases h.mismatch? <;> simp

theorem Header.encode_canonical : canonical.encode = Format.header := by
  decide

/-- What follows the canonical header. -/
theorem Chunk.reads_rest :
    Reads (do
        let upvalueCount ← byte
        let main ← Prototype.decode .canonical (Prototype.nestingLimit + 1) none
        return ({ header := .canonical, upvalueCount, main } : Chunk))
      (fun c bytes => c.header = .canonical ∧ c.main.height ≤ 200 ∧
        ∃ body, Function none c.main body ∧ bytes = [c.upvalueCount] ++ body) := by
  refine Reads.congr (.bind .byte fun upvalueCount =>
    .bind (Prototype.reads_decode _ _) fun main => .pure _) fun c bytes => ⟨?_, ?_⟩
  · rintro ⟨upvalueCount, _, _, rfl, rfl, main, body, _, ⟨hmain, hheight⟩, rfl, rfl, rfl⟩
    rw [List.append_nil]
    exact ⟨rfl, Nat.le_of_lt_succ hheight, body, hmain, rfl⟩
  · rintro ⟨hheader, hheight, body, hmain, rfl⟩
    obtain ⟨header, upvalueCount, main⟩ := c
    cases hheader
    exact ⟨upvalueCount, _, body, rfl, rfl, main, body, [],
      ⟨hmain, Nat.lt_succ_of_le hheight⟩, body.append_nil.symm, rfl, rfl⟩

/-- A decoder that goes on after the canonical header only. -/
theorem Header.reads_of_validate {α : Type} {h : Header} {d next : Decoder α} {form : Form α}
    (hok : h = .canonical → h.validate = .ok () → d = next)
    (herror : ∀ fault, h.validate = .error fault → d = MonadExcept.throw fault)
    (hnext : Reads next form) : Reads d (fun a bytes => h = .canonical ∧ form a bytes) := by
  cases hvalidate : h.validate with
  | ok _ =>
      have hcanonical := validate_eq_ok_iff.mp hvalidate
      rw [hok hcanonical hvalidate]
      exact hnext.congr fun a bytes => ⟨fun ha => ⟨hcanonical, ha⟩, And.right⟩
  | error fault =>
      rw [herror fault hvalidate]
      refine (Reads.throw fault).congr fun a bytes => ⟨False.elim, ?_⟩
      rintro ⟨rfl, -⟩
      rw [validate_eq_ok_iff.mpr rfl] at hvalidate
      cases hvalidate

theorem Chunk.reads_decoder : Reads decoder Image := by
  refine Reads.congr (.bind Header.reads_decode fun h =>
    Header.reads_of_validate (h := h) (by rintro rfl hok; rw [hok])
      (fun fault hfault => by rw [hfault]) reads_rest) fun c bytes => ⟨?_, ?_⟩
  · rintro ⟨_, _, _, rfl, rfl, rfl, hheader, hheight, body, hmain, rfl⟩
    exact ⟨hheader, hheight, body, hmain, by rw [Header.encode_canonical, List.append_assoc]⟩
  · rintro ⟨hheader, hheight, body, hmain, rfl⟩
    exact ⟨.canonical, _, _, rfl, by rw [Header.encode_canonical, List.append_assoc],
      rfl, hheader, hheight, body, hmain, rfl⟩

theorem Chunk.image_of_decodeExact {image : Bytes} {c : Chunk}
    (h : decodeExact image = .ok c) : Image c image := by
  unfold decodeExact at h
  cases hd : decoder (.start image) with
  | error fault c' =>
      rw [hd] at h
      cases h
  | ok chunk c' =>
      rw [hd] at h
      dsimp only at h
      split at h
      · next hend =>
          cases h
          obtain ⟨bytes, himage, hpast⟩ := reads_decoder.sound hd
          have hrest : c'.rest = [] := List.length_eq_zero_iff.mp hend
          have hbytes : image = bytes := by
            have := hpast.rest
            rwa [hrest, List.append_nil] at this
          rwa [hbytes]
      · cases h

theorem Chunk.decodeExact_of_image {image : Bytes} {c : Chunk} (h : Image c image)
    (hsize : image.length < UInt64.size) : decodeExact image = .ok c := by
  have hpast : (Cursor.start image).Past image ⟨image.length, []⟩ :=
    ⟨(List.append_nil _).symm, (Nat.zero_add _).symm⟩
  unfold decodeExact
  rw [reads_decoder.complete h hpast hsize]
  exact if_pos rfl

/-- **Decoding accepts exactly the format.** An image of fewer than `2 ^ 64`
bytes decodes to a chunk just when it is one of the images of that chunk. -/
theorem Chunk.decodeExact_eq_ok_iff {image : Bytes} (hsize : image.length < UInt64.size)
    (c : Chunk) : decodeExact image = .ok c ↔ Image c image :=
  ⟨image_of_decodeExact, fun h => decodeExact_of_image h hsize⟩

/-- A chunk of which `Chunk.irregularImage` is an image. -/
def Chunk.irregular : Chunk where
  header := .canonical
  upvalueCount := 2
  main :=
    { lineDefined := 5
      lastLineDefined := 6
      varargFlag := 7
      constants := #[.str "hi"]
      upvalues := [⟨true, 3, 0⟩]
      debug := { upvalueNames := [anonymousName] } }

/-- An image with a padded line number, the tag of long texts before a short
one, a flag other than 0 and 1, and a name of size 1. -/
def Chunk.irregularImage : Bytes :=
  Format.header ++
    [0x02, 0x80, 0x00, 0x85, 0x86, 0x00, 0x07, 0x02, 0x80,
     0x81, 0x14, 0x83, 0x68, 0x69, 0x81, 0x07, 0x03, 0x00,
     0x80, 0x80, 0x80, 0x80, 0x81, 0x81]

theorem Chunk.image_irregular :
    irregularImage.length < UInt64.size ∧ Image irregular irregularImage :=
  have hsize : irregularImage.length < UInt64.size := by decide
  ⟨hsize, (decodeExact_eq_ok_iff hsize irregular).mp rfl⟩

end LuaBytecode
