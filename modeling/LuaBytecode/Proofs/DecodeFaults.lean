import Mathlib
import LuaBytecode.Proofs.Prefix

/-! # Faults of decoding are true

A fault names a place in the image and says what was found there. A byte and a slice
name the place in front of them, a count the place behind its own bytes, a varuint the
end of the image, and a tag and a text the place where they began before they were
read. All of these are true of the image, wherever in a chunk decoding stops.

A decoder is shown to stay within its image and to tell the truth about it; both
pass from the parts of a decoder to the whole.
-/

namespace LuaBytecode

/-! ## Places in an image -/

/-- The cursor is where some bytes from the start of the image lead to. -/
def Cursor.Within (image : Bytes) (c : Cursor) : Prop := ∃ read, (start image).Past read c

namespace Cursor.Within

variable {image : Bytes} {c : Cursor}

theorem start (image : Bytes) : (Cursor.start image).Within image := ⟨[], .refl _⟩

theorem past (h : c.Within image) {bytes : Bytes} {c' : Cursor} (hpast : c.Past bytes c') :
    c'.Within image := by
  obtain ⟨read, hread⟩ := h
  exact ⟨read ++ bytes, hread.trans hpast⟩

theorem rest_eq_drop (h : c.Within image) : c.rest = image.drop c.position := by
  obtain ⟨read, hrest, hposition⟩ := h
  have himage : image = read ++ c.rest := hrest
  have hlength : c.position = read.length := hposition.trans (Nat.zero_add _)
  rw [hlength, himage, List.drop_left]

theorem position_add_remaining (h : c.Within image) :
    c.position + c.remaining = image.length := by
  obtain ⟨read, hpast⟩ := h
  have hlength : image.length = read.length + c.remaining := hpast.remaining_eq
  have hposition : c.position = 0 + read.length := hpast.position
  omega

/-- The byte that comes next is the one at the position. -/
theorem getElem?_position (h : c.Within image) {b : UInt8} {rest : Bytes}
    (hrest : c.rest = b :: rest) : image[c.position]? = some b := by
  rw [← List.head?_drop, ← h.rest_eq_drop, hrest, List.head?_cons]

end Cursor.Within

/-! ## What faults say -/

/-- The tags that stand for a kind of constant. -/
def ConstantTag.known : List ConstantTag :=
  [nil, false, true, int, float, shortString, longString]

/-- What the fault says about the image is so. Where more bytes are called for than the size limit,
the limit is what the fault reports as wanted, so that fewer are left is said of images below the
limit. No decoder minds what comes behind it. -/
def DecodeFault.TrueOf (image : Bytes) : DecodeFault → Prop
  | .truncated offset wanted available =>
      offset + available = image.length ∧
        (image.length < Decoder.sizeLimit → available < wanted)
  | .unknownConstantTag tag offset => image[offset]? = some tag ∧ ⟨tag⟩ ∉ ConstantTag.known
  | .invalidUtf8 offset =>
      ∃ n, 0 < n ∧ offset + n ≤ image.length ∧
        ∀ s, Bytes.ofText s ≠ (image.drop offset).take n
  | .trailingBytes _ => False
  | .badHeader _ _ _ | .nestingTooDeep _ => True

theorem Cursor.Within.truncated {image : Bytes} {c : Cursor} (h : c.Within image) {wanted : Nat}
    (hwanted : image.length < Decoder.sizeLimit → c.remaining < wanted) :
    (DecodeFault.truncated c.position wanted c.remaining).TrueOf image :=
  ⟨h.position_add_remaining, hwanted⟩

namespace Decoder

variable {α β : Type} {image : Bytes}

/-- The decoder does not leave the image, and its faults are true of it. -/
structure Truthful (image : Bytes) (d : Decoder α) : Prop where
  stays : ∀ {c c' : Cursor} {a : α}, c.Within image → d c = .ok a c' → c'.Within image
  blames : ∀ {c c' : Cursor} {fault : DecodeFault}, c.Within image → d c = .error fault c' →
    fault.TrueOf image

/-- What is decided by the bytes it goes through stays within its image. -/
theorem Decided.stays {least : Nat} {d : Decoder α} (hd : Decided least d) {c c' : Cursor} {a : α}
    (hc : c.Within image) (h : d c = .ok a c') : c'.Within image := by
  obtain ⟨bytes, hpast, -, -⟩ := hd.found h
  exact hc.past hpast

namespace Truthful

/-! ## Combining decoders -/

theorem pure (a : α) : Truthful image (Pure.pure a : Decoder α) where
  stays hc h := by
    cases h
    exact hc
  blames _ h := by cases h

theorem throw {fault : DecodeFault} (hfault : fault.TrueOf image) :
    Truthful image (MonadExcept.throw fault : Decoder α) where
  stays _ h := by cases h
  blames _ h := by
    cases h
    exact hfault

theorem bind {d : Decoder α} {k : α → Decoder β} (hd : Truthful image d)
    (hk : ∀ a, Truthful image (k a)) : Truthful image (d >>= k) where
  stays hc h := by
    obtain ⟨a, c₁, hda, hka⟩ := bind_eq_ok_iff.mp h
    exact (hk a).stays (hd.stays hc hda) hka
  blames {c} _ _ hc h := by
    cases hda : d c with
    | ok a c₁ =>
        rw [bind_of_ok hda] at h
        exact (hk a).blames (hd.stays hc hda) h
    | error fault c₁ =>
        rw [bind_of_error hda] at h
        cases h
        exact hd.blames hc hda

theorem ite {P : Prop} [Decidable P] {d e : Decoder α} (hd : P → Truthful image d)
    (he : ¬ P → Truthful image e) : Truthful image (if P then d else e) := by
  split
  · next h => exact hd h
  · next h => exact he h

theorem times {d : Decoder α} (hd : Truthful image d) (n : Nat) :
    Truthful image (times n d) := by
  induction n with
  | zero => exact pure []
  | succ n ih => exact hd.bind fun head => ih.bind fun tail => pure (head :: tail)

/-- What is read next is known together with the place where it stands. -/
theorem position_bind {d : Decoder α} {k : Nat → α → Decoder β} {P : Nat → α → Prop}
    (hd : Truthful image d)
    (hat : ∀ {c c' : Cursor} {a : α}, c.Within image → d c = .ok a c' → P c.position a)
    (hk : ∀ offset a, P offset a → Truthful image (k offset a)) :
    Truthful image (position >>= fun offset => d >>= k offset) where
  stays {c} _ _ hc h := by
    change (d >>= k c.position) c = _ at h
    obtain ⟨a, c₁, hda, hka⟩ := bind_eq_ok_iff.mp h
    exact (hk _ a (hat hc hda)).stays (hd.stays hc hda) hka
  blames {c} _ _ hc h := by
    change (d >>= k c.position) c = _ at h
    cases hda : d c with
    | ok a c₁ =>
        rw [bind_of_ok hda] at h
        exact (hk _ a (hat hc hda)).blames (hd.stays hc hda) h
    | error fault c₁ =>
        rw [bind_of_error hda] at h
        cases h
        exact hd.blames hc hda

/-! ## Bytes and words -/

theorem byte : Truthful image byte where
  stays := Decided.byte.stays
  blames := by
    rintro ⟨position, _ | ⟨b, rest⟩⟩ c' fault hc h
    · cases h
      exact hc.truncated fun _ => Nat.zero_lt_one
    · cases h

theorem slice (n : Nat) : Truthful image (slice n) where
  stays := (Decided.slice n).stays
  blames hc h := by
    unfold Decoder.slice at h
    split at h
    · cases h
    · next hshort =>
        cases h
        exact hc.truncated fun _ => Nat.not_le.mp hshort

theorem byte_at {c c' : Cursor} {b : UInt8} (hc : c.Within image)
    (h : Decoder.byte c = .ok b c') : image[c.position]? = some b := by
  obtain ⟨position, _ | ⟨b', rest⟩⟩ := c
  · cases h
  · cases h
    exact hc.getElem?_position rfl

theorem slice_at {n : Nat} {c c' : Cursor} {bytes : Bytes} (hc : c.Within image)
    (h : Decoder.slice n c = .ok bytes c') :
    bytes = (image.drop c.position).take n ∧ c.position + n ≤ image.length := by
  unfold Decoder.slice at h
  split at h
  · next hle =>
      cases h
      have hremaining := hc.position_add_remaining
      exact ⟨by rw [hc.rest_eq_drop], by omega⟩
  · cases h

theorem fixed [FixedWidth α] : Truthful image (fixed α) :=
  (slice _).bind fun _ => pure _

/-- If there are more bytes than can be asked for, there are more than the image has. -/
theorem array [FixedWidth α] (n : Nat) : Truthful image (array α n) := by
  refine ite (fun _ => (slice _).bind fun _ => pure _) fun _ => ⟨?_, ?_⟩
  · intro c c' a _ h
    cases h
  · intro c c' fault hc h
    cases h
    have hremaining := hc.position_add_remaining
    exact hc.truncated fun hsize => by omega

/-! ## Numbers and texts -/

theorem varuint : Truthful image varuint where
  stays := Decided.varuint.stays
  blames hc h := by
    rw [(Decided.varuintFrom_error h).1]
    exact ⟨hc.position_add_remaining, fun _ => Nat.zero_lt_one⟩

theorem count : Truthful image count := by
  refine varuint.bind fun v => ⟨?_, ?_⟩
  · intro c c' n hc h
    split at h
    · cases h
      exact hc
    · cases h
  · intro c c' fault hc h
    split at h
    · cases h
    · next hmore =>
        cases h
        exact hc.truncated fun _ => Nat.not_le.mp hmore

theorem counted {d : Decoder α} (hd : Truthful image d) : Truthful image (counted d) :=
  count.bind hd.times

theorem of_toText? {word : Bytes} (fault : DecodeFault) {d : Decoder String}
    (hsome : ∀ s, Bytes.toText? word = some s → d = Pure.pure s)
    (hnone : Bytes.toText? word = none → d = MonadExcept.throw fault)
    (hfault : (∀ s, Bytes.ofText s ≠ word) → fault.TrueOf image) : Truthful image d := by
  cases htext : Bytes.toText? word with
  | some s =>
      rw [hsome s htext]
      exact pure s
  | none =>
      rw [hnone htext]
      refine throw (hfault fun s hs => ?_)
      rw [Bytes.toText?_eq_some_iff.mpr hs.symm] at htext
      cases htext

theorem text {n : Nat} (hn : 0 < n) : Truthful image (text n) := by
  refine position_bind (P := fun offset bytes =>
    bytes = (image.drop offset).take n ∧ offset + n ≤ image.length) (slice n) slice_at ?_
  rintro offset bytes ⟨rfl, hle⟩
  exact of_toText? (.invalidUtf8 offset) (fun s hs => by rw [hs]) (fun hs => by rw [hs])
    fun hinvalid => ⟨n, hn, hle, hinvalid⟩

theorem string? : Truthful image string? :=
  varuint.bind fun _ => ite (fun _ => pure none) fun hsize =>
    (text (Nat.sub_pos_of_lt (Nat.not_le.mp hsize))).bind fun s => pure (some s)

end Truthful

end Decoder

open Decoder

variable {image : Bytes}

/-! ## Parts of a function -/

theorem Constant.truthful_decode (h : Header) : Truthful image (decode h) := by
  have hint : Truthful image (decodeInt h) :=
    .ite (fun _ => .bind .fixed fun _ => .pure _) fun _ => .fixed
  have hfloat : Truthful image (decodeFloat h) :=
    .ite (fun _ => .bind .fixed fun _ => .pure _) fun _ => .fixed
  refine .position_bind (P := fun offset b => image[offset]? = some b) .byte Truthful.byte_at
    fun offset tag htag => ?_
  refine .ite (fun _ => .pure _) fun hnil => .ite (fun _ => .pure _) fun hfalse =>
    .ite (fun _ => .pure _) fun htrue => .ite (fun _ => hint.bind fun _ => .pure _) fun hint' =>
    .ite (fun _ => hfloat.bind fun _ => .pure _) fun hfloat' =>
    .ite (fun _ => Truthful.string?.bind fun _ => .pure _) fun hstring => .throw ⟨htag, ?_⟩
  rw [not_or] at hstring
  simp only [ConstantTag.known, List.mem_cons, List.not_mem_nil, or_false, not_or]
  exact ⟨hnil, hfalse, htrue, hint', hfloat', hstring⟩

theorem UpvalueSource.truthful_decode : Truthful image decode :=
  Truthful.byte.bind fun _ => .bind .byte fun _ => .bind .byte fun _ => .pure _

theorem LineCheckpoint.truthful_decode : Truthful image decode :=
  Truthful.varuint.bind fun _ => .bind .varuint fun _ => .pure _

theorem DebugInfo.truthful_decodeName : Truthful image decodeName :=
  Truthful.string?.bind fun _ => .pure _

theorem LocalVariable.truthful_decode : Truthful image decode :=
  DebugInfo.truthful_decodeName.bind fun _ => .bind .varuint fun _ => .bind .varuint fun _ =>
    .pure _

theorem DebugInfo.truthful_decode : Truthful image decode :=
  Truthful.count.bind fun n => .bind (.slice n) fun _ =>
    .bind (.counted LineCheckpoint.truthful_decode) fun _ =>
    .bind (.counted LocalVariable.truthful_decode) fun _ =>
    .bind (.counted truthful_decodeName) fun _ => .pure _

/-! ## Functions and chunks -/

theorem Prototype.truthful_decode (h : Header) (levels : Nat) (enclosing : Option String) :
    Truthful image (decode h levels enclosing) := by
  induction levels generalizing enclosing with
  | zero => exact .throw trivial
  | succ levels ih =>
      exact Truthful.string?.bind fun _ => .bind .varuint fun _ => .bind .varuint fun _ =>
        .bind .byte fun _ => .bind .byte fun _ => .bind .byte fun _ =>
        .bind .count fun n => .bind (.array n) fun _ =>
        .bind (.counted (Constant.truthful_decode h)) fun _ =>
        .bind (.counted UpvalueSource.truthful_decode) fun _ =>
        .bind (.counted (ih _)) fun _ => .bind DebugInfo.truthful_decode fun _ => .pure _

theorem Header.truthful_decode : Truthful image decode :=
  Truthful.fixed.bind fun _ => .bind .fixed fun _ => .bind .byte fun _ => .bind .byte fun _ =>
    .bind .byte fun _ => .bind .fixed fun _ => .bind .fixed fun _ => .pure _

theorem Header.trueOf_of_validate {h : Header} {fault : DecodeFault}
    (hfault : h.validate = .error fault) : fault.TrueOf image := by
  unfold validate at hfault
  split at hfault
  · cases hfault
  · cases hfault
    trivial

theorem Chunk.truthful_decoder : Truthful image decoder := by
  refine Header.truthful_decode.bind fun h => ?_
  split
  · next hfault => exact .throw (Header.trueOf_of_validate hfault)
  · exact .bind .byte fun _ =>
      .bind (Prototype.truthful_decode h (Prototype.nestingLimit + 1) none) fun _ => .pure _

namespace Chunk

theorem trueOf_of_decode {fault : DecodeFault} (h : decode image = .error fault) :
    fault.TrueOf image := by
  obtain ⟨c', hd⟩ := decode_eq_error_iff.mp h
  exact truthful_decoder.blames (.start image) hd

/-- Decoding that allows nothing behind the chunk has the same faults, and one more. -/
theorem decodeExact_error_cases {fault : DecodeFault} (h : decodeExact image = .error fault) :
    decode image = .error fault ∨
    ∃ chunk c', decoder (.start image) = .ok chunk c' ∧ 0 < c'.remaining ∧
      fault = .trailingBytes c'.remaining := by
  cases hd : decoder (.start image) with
  | error fault' c' =>
      left
      unfold decodeExact at h
      rw [hd] at h
      cases h
      exact decode_eq_error_iff.mpr ⟨c', hd⟩
  | ok chunk c' =>
      right
      rw [decodeExact_of_decoder hd] at h
      split at h
      · cases h
      · next hmore =>
          cases h
          exact ⟨chunk, c', rfl, Nat.pos_of_ne_zero hmore, rfl⟩

/-- **Faults of decoding are true.** Where bytes are missing, those that are there reach from the
place that is named to the end of the image, and they are fewer than were wanted, for any image
whose size is a word below the largest. A tag that is not known stands where the fault says and is
none of the known ones. From the place of an invalid text on there are bytes that no text has. Bytes
that are left over lie behind a chunk that takes up the rest of the image. -/
theorem decode_faults_true {fault : DecodeFault}
    (h : decode image = .error fault ∨ decodeExact image = .error fault) :
    (∀ offset wanted available, fault = .truncated offset wanted available →
      offset + available = image.length ∧
        (image.length < Decoder.sizeLimit → available < wanted)) ∧
    (∀ tag offset, fault = .unknownConstantTag tag offset →
      image[offset]? = some tag ∧ ⟨tag⟩ ∉ ConstantTag.known) ∧
    (∀ offset, fault = .invalidUtf8 offset →
      ∃ n, 0 < n ∧ offset + n ≤ image.length ∧
        ∀ s, Bytes.ofText s ≠ (image.drop offset).take n) ∧
    (∀ remaining, fault = .trailingBytes remaining →
      0 < remaining ∧ ∃ chunk c', decode image = .ok chunk ∧
        decoder (.start image) = .ok chunk c' ∧ c'.position + remaining = image.length) := by
  have hcases : fault.TrueOf image ∨
      ∃ chunk c', decoder (.start image) = .ok chunk c' ∧ 0 < c'.remaining ∧
        fault = .trailingBytes c'.remaining := by
    rcases h with h | h
    · exact .inl (trueOf_of_decode h)
    · rcases decodeExact_error_cases h with h | h
      · exact .inl (trueOf_of_decode h)
      · exact .inr h
  rcases hcases with htrue | ⟨chunk, c', hd, hmore, rfl⟩
  · refine ⟨?_, ?_, ?_, ?_⟩
    · rintro offset wanted available rfl
      exact htrue
    · rintro tag offset rfl
      exact htrue
    · rintro offset rfl
      exact htrue
    · rintro remaining rfl
      exact htrue.elim
  · refine ⟨nofun, nofun, nofun, ?_⟩
    intro remaining hremaining
    cases hremaining
    have hwithin : c'.Within image := truthful_decoder.stays (.start image) hd
    exact ⟨hmore, chunk, c', decode_eq_ok_iff.mpr ⟨c', hd⟩, hd, hwithin.position_add_remaining⟩

/-- The image of a function without code, up to its only constant, which follows. -/
def imageWithConstant (constant : Bytes) : Bytes :=
  Format.header ++ [0x00, 0x80, 0x80, 0x80, 0x00, 0x00, 0x02, 0x80, 0x81] ++ constant

/-- A text that is cut off, a tag that is not known, a text with an invalid byte, and a byte behind
the chunk. -/
theorem decode_faults_true_refused :
    (decode (irregularImage.take 44) = .error (.truncated 43 2 1) ∧
      43 + 1 = (irregularImage.take 44).length ∧ 1 < 2) ∧
    (decode (imageWithConstant [0x05]) = .error (.unknownConstantTag 0x05 40) ∧
      (imageWithConstant [0x05])[40]? = some 0x05 ∧ ⟨0x05⟩ ∉ ConstantTag.known) ∧
    (decode (imageWithConstant [0x04, 0x83, 0x68, 0xff]) = .error (.invalidUtf8 42) ∧
      ∃ n, 0 < n ∧ 42 + n ≤ (imageWithConstant [0x04, 0x83, 0x68, 0xff]).length ∧
        ∀ s, Bytes.ofText s ≠ ((imageWithConstant [0x04, 0x83, 0x68, 0xff]).drop 42).take n) ∧
    (decodeExact (irregularImage ++ [0xff]) = .error (.trailingBytes 1) ∧
      ∃ chunk c', decode (irregularImage ++ [0xff]) = .ok chunk ∧
        decoder (.start (irregularImage ++ [0xff])) = .ok chunk c' ∧
        c'.position + 1 = (irregularImage ++ [0xff]).length) := by
  have hcut : decode (irregularImage.take 44) = .error (.truncated 43 2 1) := rfl
  have htag : decode (imageWithConstant [0x05]) = .error (.unknownConstantTag 0x05 40) := rfl
  have htext : decode (imageWithConstant [0x04, 0x83, 0x68, 0xff]) = .error (.invalidUtf8 42) := rfl
  have hmore : decodeExact (irregularImage ++ [0xff]) = .error (.trailingBytes 1) := rfl
  refine ⟨⟨hcut, ?_⟩, ⟨htag, ?_⟩, ⟨htext, ?_⟩, ⟨hmore, ?_⟩⟩
  · obtain ⟨hreach, hfewer⟩ := (decode_faults_true (.inl hcut)).1 _ _ _ rfl
    exact ⟨hreach, hfewer (by decide)⟩
  · exact (decode_faults_true (.inl htag)).2.1 _ _ rfl
  · exact (decode_faults_true (.inl htext)).2.2.1 _ rfl
  · exact ((decode_faults_true (.inr hmore)).2.2.2 _ rfl).2

end Chunk

end LuaBytecode
