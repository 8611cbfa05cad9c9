import Mathlib
import LuaBytecode.Proofs.RoundTrip

/-! # Decoding is decided by a prefix

What a decoder makes of an image depends only on the bytes that it goes through.
A value is found in the bytes that stand for it whatever follows them, and a
fault for any reason but missing bytes stays what it is however the image goes
on.

There is one look ahead: a count is compared with the number of all bytes that
are left. It makes no difference, because each of the elements that are counted
takes up a byte at least. So the decoders are shown to be `Decided` together with
a number of bytes that they go through at least.
-/

namespace LuaBytecode

/-- Bytes are missing. -/
def DecodeFault.IsTruncated : DecodeFault → Prop
  | .truncated _ _ _ => True
  | _ => False

theorem DecodeFault.isTruncated_iff {fault : DecodeFault} :
    fault.IsTruncated ↔ ∃ offset wanted available, fault = .truncated offset wanted available := by
  constructor
  · intro h
    cases fault with
    | truncated offset wanted available => exact ⟨offset, wanted, available, rfl⟩
    | _ => exact h.elim
  · rintro ⟨offset, wanted, available, rfl⟩
    trivial

/-- The same place in an image that goes on with more bytes. -/
def Cursor.extend (c : Cursor) (more : Bytes) : Cursor := ⟨c.position, c.rest ++ more⟩

theorem Cursor.start_extend (image more : Bytes) :
    (start image).extend more = start (image ++ more) := rfl

theorem Cursor.Past.extend {c c' : Cursor} {bytes : Bytes} (h : c.Past bytes c')
    (more : Bytes) : (c.extend more).Past bytes (c'.extend more) where
  rest := by
    show c.rest ++ more = bytes ++ (c'.rest ++ more)
    rw [h.rest, List.append_assoc]
  position := h.position

namespace Decoder

variable {α β : Type}

/-- At the given position the decoder finds the value in the bytes, whatever
follows them. -/
def Finds (d : Decoder α) (position : Nat) (a : α) (bytes : Bytes) : Prop :=
  ∀ rest, d ⟨position, bytes ++ rest⟩ = .ok a ⟨position + bytes.length, rest⟩

namespace Finds

theorem of_past {d : Decoder α} {a : α} {bytes : Bytes} {c c' : Cursor}
    (h : Finds d c.position a bytes) (hpast : c.Past bytes c') : d c = .ok a c' := by
  obtain ⟨position, rest⟩ := c
  obtain ⟨position', rest'⟩ := c'
  obtain ⟨hrest, hposition⟩ := hpast
  dsimp only at h hrest hposition
  rw [hrest, hposition]
  exact h rest'

theorem pure (position : Nat) (a : α) : Finds (Pure.pure a) position a [] := fun _ => rfl

theorem bind {d : Decoder α} {k : α → Decoder β} {position : Nat} {a : α} {b : β} {x y : Bytes}
    (hd : Finds d position a x) (hk : Finds (k a) (position + x.length) b y) :
    Finds (d >>= k) position b (x ++ y) := by
  intro rest
  rw [List.append_assoc, bind_of_ok (hd (y ++ rest)), hk rest, List.length_append, Nat.add_assoc]

/-- A count is found if as many bytes follow it. -/
theorem count_bind {k : Nat → Decoder β} {position : Nat} {v : UInt64} {b : β} {x y : Bytes}
    (hv : Finds varuint position v x) (hle : v.toNat ≤ y.length)
    (hk : Finds (k v.toNat) (position + x.length) b y) :
    Finds (count >>= k) position b (x ++ y) := by
  intro rest
  have hremaining : v.toNat ≤ (y ++ rest).length := by
    rw [List.length_append]
    omega
  have hcount : count ⟨position, x ++ (y ++ rest)⟩
      = .ok v.toNat ⟨position + x.length, y ++ rest⟩ :=
    Reads.count_eq_ok_iff.mpr ⟨v, hv (y ++ rest), rfl, hremaining⟩
  rw [List.append_assoc, bind_of_ok hcount, hk rest, List.length_append, Nat.add_assoc]

end Finds

/-- The outcome of the decoder is decided by the bytes that it goes through,
which are `least` at least where it finds a value. -/
structure Decided (least : Nat) (d : Decoder α) : Prop where
  found : ∀ {c c' : Cursor} {a : α}, d c = .ok a c' →
    ∃ bytes, c.Past bytes c' ∧ least ≤ bytes.length ∧ d.Finds c.position a bytes
  settled : ∀ {c c' : Cursor} {fault : DecodeFault}, d c = .error fault c' →
    ¬ fault.IsTruncated → ∀ more, ∃ c₁, d (c.extend more) = .error fault c₁

namespace Decided

/-! ## Combining decoders -/

theorem mono {least less : Nat} {d : Decoder α} (h : Decided least d) (hle : less ≤ least) :
    Decided less d where
  found hd := by
    obtain ⟨bytes, hpast, hlength, hfinds⟩ := h.found hd
    exact ⟨bytes, hpast, hle.trans hlength, hfinds⟩
  settled := h.settled

/-- A value that has been found is found again when the image goes on. -/
theorem extend {least : Nat} {d : Decoder α} (h : Decided least d) {c c' : Cursor} {a : α}
    (hd : d c = .ok a c') (more : Bytes) : d (c.extend more) = .ok a (c'.extend more) := by
  obtain ⟨bytes, hpast, -, hfinds⟩ := h.found hd
  exact Finds.of_past (c := c.extend more) hfinds (hpast.extend more)

theorem pure (a : α) : Decided 0 (Pure.pure a : Decoder α) where
  found := by
    intro c c' _ hd
    cases hd
    exact ⟨[], .refl c, Nat.le_refl 0, .pure _ a⟩
  settled hd := by cases hd

theorem throw (least : Nat) (fault : DecodeFault) :
    Decided least (MonadExcept.throw fault : Decoder α) where
  found hd := by cases hd
  settled := by
    intro c c' _ hd _ more
    cases hd
    exact ⟨c.extend more, rfl⟩

theorem truncated (least wanted : Nat) : Decided least (truncated wanted : Decoder α) where
  found hd := by cases hd
  settled := by
    intro c c' _ hd hnot
    cases hd
    exact absurd trivial hnot

theorem bind {m n : Nat} {d : Decoder α} {k : α → Decoder β} (hd : Decided m d)
    (hk : ∀ a, Decided n (k a)) : Decided (m + n) (d >>= k) where
  found := by
    intro c c' b h
    obtain ⟨a, c₁, hda, hka⟩ := bind_eq_ok_iff.mp h
    obtain ⟨x, hpast, hx, hfindsx⟩ := hd.found hda
    obtain ⟨y, hpast', hy, hfindsy⟩ := (hk a).found hka
    rw [hpast.position] at hfindsy
    refine ⟨x ++ y, hpast.trans hpast', ?_, hfindsx.bind hfindsy⟩
    rw [List.length_append]
    exact Nat.add_le_add hx hy
  settled := by
    intro c c' fault h hnot more
    cases hda : d c with
    | ok a c₁ =>
        rw [bind_of_ok hda] at h
        obtain ⟨c₂, hka⟩ := (hk a).settled h hnot more
        exact ⟨c₂, (bind_of_ok (hd.extend hda more)).trans hka⟩
    | error fault' c₁ =>
        rw [bind_of_error hda] at h
        cases h
        obtain ⟨c₂, hda'⟩ := hd.settled hda hnot more
        exact ⟨c₂, bind_of_error hda'⟩

theorem ite {P : Prop} [Decidable P] {least : Nat} {d e : Decoder α} (hd : Decided least d)
    (he : Decided least e) : Decided least (if P then d else e) := by
  split
  · exact hd
  · exact he

/-- The position is the same however the image goes on. -/
theorem position_bind {least : Nat} {k : Nat → Decoder α} (hk : ∀ n, Decided least (k n)) :
    Decided least (position >>= k) where
  found {c} _ _ h := (hk c.position).found h
  settled {c} _ _ h := (hk c.position).settled h

/-- As many bytes as there are elements, if an element takes up one at least. -/
theorem times {d : Decoder α} (hd : Decided 1 d) : ∀ n, Decided n (times n d)
  | 0 => pure []
  | n + 1 => by
      have htail : Decided (1 + (n + 0)) (Decoder.times (n + 1) d) :=
        hd.bind fun head => (times hd n).bind fun tail => pure (head :: tail)
      exact htail.mono (by omega)

/-! ## Bytes and words -/

theorem byte : Decided 1 byte where
  found := by
    rintro ⟨position, _ | ⟨b, rest⟩⟩ c' a hd
    · cases hd
    · cases hd
      exact ⟨[b], ⟨rfl, rfl⟩, Nat.le_refl 1, fun _ => rfl⟩
  settled := by
    rintro ⟨position, _ | ⟨b, rest⟩⟩ c' fault hd hnot
    · cases hd
      exact absurd trivial hnot
    · cases hd

theorem finds_slice (position : Nat) (bytes : Bytes) :
    Finds (slice bytes.length) position bytes bytes := by
  intro rest
  have hle : bytes.length ≤ (bytes ++ rest).length := by simp
  unfold Decoder.slice Cursor.remaining
  rw [if_pos hle, List.take_left, List.drop_left]

theorem slice (n : Nat) : Decided n (slice n) where
  found := by
    intro c c' a hd
    obtain ⟨bytes, ⟨hlength, rfl⟩, hpast⟩ := (Reads.slice n).sound hd
    subst hlength
    exact ⟨bytes, hpast, Nat.le_refl _, finds_slice c.position bytes⟩
  settled := by
    intro c c' fault hd hnot
    unfold Decoder.slice at hd
    split at hd
    · cases hd
    · cases hd
      exact absurd trivial hnot

theorem fixed [FixedWidth α] : Decided (FixedWidth.width α) (fixed α) :=
  (slice _).bind fun bytes => pure (FixedWidth.decode α bytes)

theorem array [FixedWidth α] (n : Nat) : Decided (n * FixedWidth.width α) (array α n) :=
  ite ((slice _).bind fun bytes => pure (FixedWidth.decodeList α n bytes)) (truncated _ _)

/-! ## Numbers and texts -/

/-- A number that does not end goes on up to the end of the bytes. -/
theorem varuintFrom_error {bytes : Bytes} {acc : UInt64} {position : Nat} {fault : DecodeFault}
    {c : Cursor} (h : varuintFrom acc position bytes = .error fault c) :
    fault = .truncated (position + bytes.length) 1 0 ∧ c = ⟨position + bytes.length, []⟩ := by
  induction bytes generalizing acc position with
  | nil =>
      cases h
      exact ⟨rfl, rfl⟩
  | cons b rest ih =>
      rw [varuintFrom] at h
      split at h
      · rw [List.length_cons, Nat.add_comm rest.length, ← Nat.add_assoc]
        exact ih h
      · cases h

theorem varuint_error {c c' : Cursor} {fault : DecodeFault}
    (h : Decoder.varuint c = .error fault c') : fault.IsTruncated := by
  rw [(varuintFrom_error h).1]
  trivial

/-- Groups of which only the last has its high bit set. -/
theorem finds_varuint {high : Bytes} {last : UInt8} (hhigh : ∀ b ∈ high, b < 128)
    (hlast : 128 ≤ last) (position : Nat) :
    Finds varuint position (UInt64.ofNat (Format.groups (high ++ [last]))) (high ++ [last]) := by
  intro rest
  rw [List.append_assoc, List.length_append, ← Nat.add_assoc]
  exact Reads.varuintFrom_complete hhigh hlast 0 position rest

theorem varuint : Decided 1 varuint where
  found := by
    intro c c' v hd
    obtain ⟨high, last, hhigh, hlast, rfl, hpast⟩ := Reads.varuintFrom_sound (n := 0) hd
    refine ⟨high ++ [last], hpast, ?_, finds_varuint hhigh hlast c.position⟩
    rw [List.length_append]
    exact Nat.le_add_left _ _
  settled hd hnot := absurd (varuint_error hd) hnot

theorem count_error {c c' : Cursor} {fault : DecodeFault} (h : count c = .error fault c') :
    fault.IsTruncated := by
  cases hv : Decoder.varuint c with
  | ok v c₁ =>
      have hcheck : (if v.toNat ≤ c₁.remaining then .ok v.toNat c₁
          else Decoder.truncated v.toNat c₁) = EStateM.Result.error fault c' :=
        (bind_of_ok hv).symm.trans h
      split at hcheck
      · cases hcheck
      · cases hcheck
        trivial
  | error fault' c₁ =>
      have herror : EStateM.Result.error fault' c₁ = .error fault c' :=
        (bind_of_error hv).symm.trans h
      cases herror
      exact varuint_error hv

/-- The look ahead of a count: what comes next goes through at least as many bytes
as are asked for, so no byte behind it is needed. -/
theorem count_bind {k : Nat → Decoder β} (hk : ∀ n, Decided n (k n)) :
    Decided 1 (count >>= k) where
  found := by
    intro c c' b h
    obtain ⟨n, c₁, hcount, hkn⟩ := bind_eq_ok_iff.mp h
    obtain ⟨v, hv, rfl, -⟩ := Reads.count_eq_ok_iff.mp hcount
    obtain ⟨x, hpast, hx, hfindsx⟩ := found varuint hv
    obtain ⟨y, hpast', hy, hfindsy⟩ := (hk v.toNat).found hkn
    rw [hpast.position] at hfindsy
    refine ⟨x ++ y, hpast.trans hpast', ?_, hfindsx.count_bind hy hfindsy⟩
    rw [List.length_append]
    omega
  settled := by
    intro c c' fault h hnot more
    cases hcount : count c with
    | error fault' c₁ =>
        rw [bind_of_error hcount] at h
        cases h
        exact absurd (count_error hcount) hnot
    | ok n c₁ =>
        rw [bind_of_ok hcount] at h
        obtain ⟨v, hv, rfl, hle⟩ := Reads.count_eq_ok_iff.mp hcount
        -- more bytes can only help a count
        have hremaining : v.toNat ≤ (c₁.extend more).remaining := by
          show v.toNat ≤ (c₁.rest ++ more).length
          rw [List.length_append]
          exact hle.trans (Nat.le_add_right _ _)
        have hcount' : count (c.extend more) = .ok v.toNat (c₁.extend more) :=
          Reads.count_eq_ok_iff.mpr ⟨v, extend varuint hv more, rfl, hremaining⟩
        obtain ⟨c₂, hkn⟩ := (hk v.toNat).settled h hnot more
        exact ⟨c₂, (bind_of_ok hcount').trans hkn⟩

theorem counted {d : Decoder α} (hd : Decided 1 d) : Decided 1 (counted d) :=
  count_bind hd.times

theorem of_toText? {word : Bytes} {fault : DecodeFault} {d : Decoder String}
    (hsome : ∀ s, Bytes.toText? word = some s → d = Pure.pure s)
    (hnone : Bytes.toText? word = none → d = MonadExcept.throw fault) : Decided 0 d := by
  cases hs : Bytes.toText? word with
  | none =>
      rw [hnone hs]
      exact throw 0 fault
  | some s =>
      rw [hsome s hs]
      exact pure s

theorem text (n : Nat) : Decided n (text n) :=
  position_bind fun _ => (slice n).bind fun _ =>
    of_toText? (fun s hs => by rw [hs]) fun hs => by rw [hs]

theorem string? : Decided 1 string? :=
  bind varuint fun v => ite (pure none) <|
    ((text (v.toNat - 1)).bind fun s => pure (some s)).mono (Nat.zero_le _)

end Decided

end Decoder

open Decoder

/-! ## Parts of a function -/

theorem Constant.decided_decode (h : Header) : Decided 1 (decode h) := by
  have hint : Decided 0 (decodeInt h) :=
    .ite (((Decided.fixed (α := Int32)).bind fun i => .pure i.toInt64).mono (Nat.zero_le _))
      (.mono .fixed (Nat.zero_le _))
  have hfloat : Decided 0 (decodeFloat h) :=
    .ite (((Decided.fixed (α := Binary32)).bind fun f => .pure (Binary64.ofBinary32 f)).mono
      (Nat.zero_le _)) (.mono .fixed (Nat.zero_le _))
  have hstring : Decided 0 Decoder.string? := .mono .string? (Nat.zero_le _)
  exact .position_bind fun offset => .bind .byte fun tag =>
    .ite (.pure _) <| .ite (.pure _) <| .ite (.pure _) <|
    .ite (.bind hint fun i => .pure _) <| .ite (.bind hfloat fun f => .pure _) <|
    .ite (.bind hstring fun s => .pure _) (.throw 0 _)

theorem UpvalueSource.decided_decode : Decided 1 decode :=
  .mono (.bind .byte fun _ => .bind .byte fun _ => .bind .byte fun _ => .pure _) (by decide)

theorem LineCheckpoint.decided_decode : Decided 1 decode :=
  .mono (.bind .varuint fun _ => .bind .varuint fun _ => .pure _) (by decide)

theorem DebugInfo.decided_decodeName : Decided 1 decodeName :=
  .bind .string? fun _ => .pure _

theorem LocalVariable.decided_decode : Decided 1 decode :=
  .mono (.bind DebugInfo.decided_decodeName fun _ => .bind .varuint fun _ =>
    .bind .varuint fun _ => .pure _) (by decide)

theorem DebugInfo.decided_decode : Decided 1 decode :=
  .count_bind fun n => ((Decided.slice n).bind fun _ =>
    .bind (.counted LineCheckpoint.decided_decode) fun _ =>
    .bind (.counted LocalVariable.decided_decode) fun _ =>
    .bind (.counted decided_decodeName) fun _ => .pure _).mono (Nat.le_add_right n _)

/-! ## Functions and chunks -/

theorem Prototype.decided_decode (h : Header) (levels : Nat) (enclosing : Option String) :
    Decided 1 (decode h levels enclosing) := by
  induction levels generalizing enclosing with
  | zero => exact .throw 1 _
  | succ levels ih =>
      -- a word of code takes up four bytes, so the code is as long as its count says
      have hcode : ∀ {n k : Nat}, n ≤ n * FixedWidth.width Instruction + k := by
        intro n k
        show n ≤ n * 4 + k
        omega
      exact .mono (.bind .string? fun _ => .bind .varuint fun _ => .bind .varuint fun _ =>
        .bind .byte fun _ => .bind .byte fun _ => .bind .byte fun _ =>
        .count_bind fun n => ((Decided.array n).bind fun _ =>
        .bind (.counted (Constant.decided_decode h)) fun _ =>
        .bind (.counted UpvalueSource.decided_decode) fun _ =>
        .bind (.counted (ih _)) fun _ =>
        .bind DebugInfo.decided_decode fun _ => .pure _).mono hcode) (Nat.le_add_right 1 _)

theorem Header.decided_decode : Decided 0 decode :=
  .mono (.bind .fixed fun _ => .bind .fixed fun _ => .bind .byte fun _ => .bind .byte fun _ =>
    .bind .byte fun _ => .bind .fixed fun _ => .bind .fixed fun _ => .pure _) (Nat.zero_le _)

theorem Header.decided_of_validate {α : Type} {least : Nat} {h : Header} {d next : Decoder α}
    (hok : h.validate = .ok () → d = next)
    (herror : ∀ fault, h.validate = .error fault → d = MonadExcept.throw fault)
    (hnext : Decided least next) : Decided least d := by
  cases hvalidate : h.validate with
  | ok _ =>
      rw [hok hvalidate]
      exact hnext
  | error fault =>
      rw [herror fault hvalidate]
      exact .throw least fault

theorem Chunk.decided_decoder : Decided 0 decoder :=
  .bind Header.decided_decode fun h =>
    Header.decided_of_validate (h := h) (fun hok => by rw [hok])
      (fun fault hfault => by rw [hfault])
      (.mono (.bind .byte fun _ =>
        .bind (Prototype.decided_decode h (Prototype.nestingLimit + 1) none) fun _ =>
          .pure _) (Nat.zero_le _))

namespace Chunk

theorem decode_eq_ok_iff {image : Bytes} {c : Chunk} :
    decode image = .ok c ↔ ∃ c', decoder (.start image) = .ok c c' := by
  unfold decode
  cases decoder (.start image) with
  | ok chunk c' => simp
  | error fault c' => simp

theorem decode_eq_error_iff {image : Bytes} {fault : DecodeFault} :
    decode image = .error fault ↔ ∃ c', decoder (.start image) = .error fault c' := by
  unfold decode
  cases decoder (.start image) with
  | ok chunk c' => simp
  | error fault c' => simp

theorem decodeExact_of_decoder {image : Bytes} {c : Chunk} {c' : Cursor}
    (h : decoder (.start image) = .ok c c') :
    decodeExact image
      = if c'.remaining = 0 then .ok c else .error (.trailingBytes c'.remaining) := by
  unfold decodeExact
  rw [h]

/-- However an image goes on, its chunk stays the same. -/
theorem decode_append_of_ok {image : Bytes} {c : Chunk} (h : decode image = .ok c)
    (more : Bytes) : decode (image ++ more) = .ok c := by
  obtain ⟨c', hd⟩ := decode_eq_ok_iff.mp h
  exact decode_eq_ok_iff.mpr ⟨_, Decided.extend decided_decoder hd more⟩

/-- However an image goes on, a fault stays the same unless bytes were missing. -/
theorem decode_append_of_error {image : Bytes} {fault : DecodeFault}
    (h : decode image = .error fault) (hnot : ¬ fault.IsTruncated) (more : Bytes) :
    decode (image ++ more) = .error fault := by
  obtain ⟨c', hd⟩ := decode_eq_error_iff.mp h
  exact decode_eq_error_iff.mpr (Decided.settled decided_decoder hd hnot more)

/-- What stands before the end of a chunk is no chunk yet, and shows no fault. -/
theorem decode_take_of_finds {bytes : Bytes} {c : Chunk} (h : Finds decoder 0 c bytes)
    (rest : Bytes) {m : Nat} (hm : m < bytes.length) :
    ∃ fault, decode ((bytes ++ rest).take m) = .error fault ∧ fault.IsTruncated := by
  have hwhole : decoder (.start (bytes ++ rest)) = .ok c ⟨0 + bytes.length, rest⟩ := h rest
  have hsplit : (bytes ++ rest).take m ++ (bytes ++ rest).drop m = bytes ++ rest :=
    List.take_append_drop m _
  cases hd : decoder (.start ((bytes ++ rest).take m)) with
  | ok c₁ c' =>
      -- the whole image would end where this part of it does
      obtain ⟨x, hpast, -, hfinds⟩ := Decided.found decided_decoder hd
      have hend := Decided.extend decided_decoder hd ((bytes ++ rest).drop m)
      rw [Cursor.start_extend, hsplit, hwhole] at hend
      have hposition : 0 + bytes.length = c'.position := by
        injection hend with _ hcursor
        exact congrArg Cursor.position hcursor
      have hlength : x.length ≤ m := by
        have hrest := congrArg List.length hpast.rest
        rw [List.length_append] at hrest
        have htake : ((bytes ++ rest).take m).length ≤ m := List.length_take_le _ _
        have hstart : (Cursor.start ((bytes ++ rest).take m)).rest = (bytes ++ rest).take m := rfl
        rw [hstart] at hrest
        omega
      have hx : c'.position = 0 + x.length := hpast.position
      omega
  | error fault c' =>
      refine ⟨fault, decode_eq_error_iff.mpr ⟨c', hd⟩, ?_⟩
      by_contra hnot
      obtain ⟨c₁, herror⟩ := Decided.settled decided_decoder hd hnot ((bytes ++ rest).drop m)
      rw [Cursor.start_extend, hsplit, hwhole] at herror
      cases herror

/-- **Decoding is decided by a prefix.** Any outcome but missing bytes stays the
same however the image goes on. A chunk ends at a certain byte of its image: in
front of it bytes are missing, and from it on the chunk is there, while decoding
that allows nothing behind the chunk counts exactly what is. -/
theorem decode_decided_by_prefix (image : Bytes) :
    (∀ outcome, decode image = outcome →
      (∀ offset wanted available, outcome ≠ .error (.truncated offset wanted available)) →
      ∀ more, decode (image ++ more) = outcome) ∧
    (∀ c, decode image = .ok c →
      ∃ n ≤ image.length,
        (∀ m < n, ∃ offset wanted available,
          decode (image.take m) = .error (.truncated offset wanted available)) ∧
        ∀ more, decode (image.take n ++ more) = .ok c ∧
          decodeExact (image.take n ++ more)
            = if more = [] then .ok c else .error (.trailingBytes more.length)) := by
  constructor
  · intro outcome houtcome hnot more
    cases outcome with
    | ok c => exact decode_append_of_ok houtcome more
    | error fault =>
        refine decode_append_of_error houtcome ?_ more
        intro htruncated
        obtain ⟨offset, wanted, available, rfl⟩ := DecodeFault.isTruncated_iff.mp htruncated
        exact hnot offset wanted available rfl
  · intro c hc
    obtain ⟨c', hd⟩ := decode_eq_ok_iff.mp hc
    obtain ⟨bytes, hpast, -, hfinds⟩ := decided_decoder.found hd
    have himage : image = bytes ++ c'.rest := hpast.rest
    have htake : image.take bytes.length = bytes := by rw [himage, List.take_left]
    refine ⟨bytes.length, ?_, ?_, ?_⟩
    · rw [himage, List.length_append]
      exact Nat.le_add_right _ _
    · intro m hm
      obtain ⟨fault, hfault, htruncated⟩ := decode_take_of_finds hfinds c'.rest hm
      obtain ⟨offset, wanted, available, rfl⟩ := DecodeFault.isTruncated_iff.mp htruncated
      rw [himage]
      exact ⟨offset, wanted, available, hfault⟩
    · intro more
      rw [htake]
      have hmore : decoder (.start (bytes ++ more)) = .ok c ⟨0 + bytes.length, more⟩ :=
        hfinds more
      refine ⟨decode_eq_ok_iff.mpr ⟨_, hmore⟩, ?_⟩
      rw [decodeExact_of_decoder hmore]
      exact if_congr List.length_eq_zero_iff rfl rfl

/-- An image with one byte more, its parts, and a byte behind its chunk. -/
theorem decode_decided_by_prefix_irregular :
    decode irregularImage = .ok irregular ∧
      decode (irregularImage ++ [0xff]) = .ok irregular ∧
      ∃ n ≤ irregularImage.length,
        (∀ m < n, ∃ offset wanted available,
          decode (irregularImage.take m) = .error (.truncated offset wanted available)) ∧
        decodeExact (irregularImage.take n ++ [0xff]) = .error (.trailingBytes 1) := by
  have hdecode : decode irregularImage = .ok irregular := rfl
  obtain ⟨hsame, hchunk⟩ := decode_decided_by_prefix irregularImage
  obtain ⟨n, hn, hbefore, hfrom⟩ := hchunk irregular hdecode
  exact ⟨hdecode, hsame _ hdecode nofun [0xff], n, hn, hbefore, (hfrom [0xff]).2⟩

end Chunk

end LuaBytecode
