import Mathlib
import LuaBytecode.Proofs.Prefix

/-! # Writing what has been read

An image may be written in many ways, and reading forgets which. What has been
read can be written again, and reading that gives the same once more: every
source is in its place, no source or name is empty, and every length has fitted
into 64 bits before.

This needs no normal form and no bound on the size of an image. For each decoder
it is enough that what it has found anywhere, it finds in what is written for it
(`Decoder.Rereads`).
-/

namespace LuaBytecode

namespace Decoder

variable {α β : Type}

/-- What the decoder has found anywhere, it finds in what is written for it,
wherever that stands. -/
def Rereads (d : Decoder α) (write : α → Bytes) : Prop :=
  ∀ ⦃c c' : Cursor⦄ ⦃a : α⦄, d c = .ok a c' → ∀ position, d.Finds position a (write a)

/-- A decoder that takes off one byte and goes on as another. -/
theorem Finds.cons {d e : Decoder α} {position : Nat} {b : UInt8} {a : α} {bytes : Bytes}
    (hd : ∀ rest, d ⟨position, b :: rest⟩ = e ⟨position + 1, rest⟩)
    (he : Finds e (position + 1) a bytes) : Finds d position a (b :: bytes) := by
  intro rest
  rw [List.cons_append, hd, he rest, List.length_cons, Nat.add_right_comm, Nat.add_assoc]

theorem Finds.byte_bind {k : UInt8 → Decoder β} {position : Nat} {b : UInt8} {a : β}
    {bytes : Bytes} (hk : Finds (k b) (position + 1) a bytes) :
    Finds (byte >>= k) position a (b :: bytes) :=
  .cons (fun _ => rfl) hk

theorem Finds.bind_pure {d : Decoder α} {position : Nat} {a : α} {bytes : Bytes}
    (h : Finds d position a bytes) (f : α → β) :
    Finds (d >>= fun a => Pure.pure (f a)) position (f a) bytes :=
  fun rest => bind_of_ok (h rest)

/-! ## Numbers and words -/

theorem finds_encode_varuint (v : UInt64) (position : Nat) :
    Finds varuint position v (Encoder.varuint v) := by
  obtain ⟨high, last, hbytes, hhigh, hlast, hv⟩ := Encoder.varuint_form v
  have h := Decided.finds_varuint hhigh hlast position
  rwa [← hbytes, ← hv] at h

theorem finds_encode_fixed [FixedWidth α] (a : α) (position : Nat) :
    Finds (fixed α) position a (FixedWidth.encode a) := by
  have hslice := Decided.finds_slice position (FixedWidth.encode a)
  rw [FixedWidth.length_encode] at hslice
  have h := hslice.bind_pure (FixedWidth.decode α)
  rwa [FixedWidth.decode_encode] at h

/-- A slice is written as it is. -/
theorem Rereads.slice (n : Nat) : Rereads (slice n) id := by
  intro c c' bytes h position
  obtain ⟨_, ⟨hlength, -⟩, -⟩ := (Reads.slice n).sound h
  subst hlength
  exact Decided.finds_slice position bytes

theorem Rereads.array [FixedWidth α] (n : Nat) :
    Rereads (array α n) fun xs => xs.flatMap FixedWidth.encode := by
  intro c c' xs h position
  obtain ⟨bytes, ⟨hlength, -⟩, -⟩ := (Reads.array n).sound h
  subst hlength
  unfold Decoder.array at h ⊢
  split at h
  · next hlimit =>
      have hslice := Decided.finds_slice position (xs.flatMap FixedWidth.encode)
      rw [FixedWidth.length_flatMap_encode] at hslice
      have hfinds := hslice.bind_pure (FixedWidth.decodeList α xs.length)
      rw [FixedWidth.decodeList_flatMap_encode] at hfinds
      rwa [if_pos hlimit]
  · cases h

/-! ## Texts -/

/-- A text that can be read: it is not empty, and its size fits. -/
def Readable (s : String) : Prop := s ≠ "" ∧ s.utf8ByteSize + 1 < UInt64.size

theorem Readable.of_count {s : String} {size : Bytes} (hne : s ≠ "")
    (hsize : Format.Count (s.utf8ByteSize + 1) size) : Readable s := by
  obtain ⟨v, -, hv⟩ := hsize
  refine ⟨hne, ?_⟩
  rw [hv]
  exact v.toNat_lt

theorem readable_of_string? {c c' : Cursor} {s : String} (h : string? c = .ok (some s) c') :
    Readable s := by
  obtain ⟨bytes, htext, -⟩ := Reads.string?.sound h
  cases htext with
  | present hne hsize => exact .of_count hne hsize

theorem finds_text (s : String) (position : Nat) :
    Finds (text s.utf8ByteSize) position s (Bytes.ofText s) := by
  have hslice : Finds (Decoder.slice s.utf8ByteSize) position (Bytes.ofText s) (Bytes.ofText s) :=
    Decided.finds_slice position (Bytes.ofText s)
  have htext : Bytes.toText? (Bytes.ofText s) = some s := Bytes.toText?_eq_some_iff.mpr rfl
  intro rest
  show (Decoder.slice s.utf8ByteSize >>= _) _ = _
  rw [bind_of_ok (hslice rest)]
  dsimp only
  rw [htext]
  rfl

/-- A size of at most one means that there is no text. -/
theorem finds_string?_none {v : UInt64} (hv : v.toNat ≤ 1) (position : Nat) :
    Finds string? position none (Encoder.varuint v) := by
  have h : Finds string? position none (Encoder.varuint v ++ []) := by
    refine (finds_encode_varuint v position).bind ?_
    dsimp only
    rw [if_pos hv]
    exact .pure _ none
  rwa [List.append_nil] at h

theorem finds_string?_some {s : String} (hs : Readable s) (position : Nat) :
    Finds string? position (some s) (Encoder.string? (some s)) := by
  obtain ⟨hne, hsize⟩ := hs
  have hpos : s.utf8ByteSize ≠ 0 := fun h => hne (String.utf8ByteSize_eq_zero_iff.mp h)
  have hnat : (UInt64.ofNat (s.utf8ByteSize + 1)).toNat = s.utf8ByteSize + 1 :=
    UInt64.toNat_ofNat_of_lt' hsize
  refine (finds_encode_varuint (UInt64.ofNat (s.utf8ByteSize + 1)) position).bind ?_
  dsimp only
  rw [hnat, if_neg (by omega), Nat.add_sub_cancel]
  exact (finds_text s _).bind_pure some

/-! ## Lists -/

theorem Rereads.times {d : Decoder α} {write : α → Bytes} (hd : Rereads d write) :
    ∀ {n : Nat} {c c' : Cursor} {xs : List α}, times n d c = .ok xs c' →
      xs.length = n ∧ ∀ position, (Decoder.times n d).Finds position xs (xs.flatMap write)
  | 0, _, _, _, h => by
      cases h
      exact ⟨rfl, fun position => .pure position []⟩
  | n + 1, _, _, _, h => by
      obtain ⟨head, c₁, hhead, h⟩ := bind_eq_ok_iff.mp h
      obtain ⟨tail, c₂, htail, h⟩ := bind_eq_ok_iff.mp h
      cases h
      obtain ⟨hlength, hfinds⟩ := times hd htail
      refine ⟨by rw [List.length_cons, hlength], fun position => ?_⟩
      exact (hd hhead position).bind ((hfinds _).bind_pure (head :: ·))

/-- The count of a list has been read before, so it fits into 64 bits. -/
theorem Rereads.counted {d : Decoder α} {write : α → Bytes} (hd : Rereads d write)
    (hwrite : ∀ a, write a ≠ []) : Rereads (counted d) (Encoder.counted write) := by
  intro c c' xs h position
  obtain ⟨n, c₁, hcount, htimes⟩ := bind_eq_ok_iff.mp h
  obtain ⟨v, -, rfl, -⟩ := Reads.count_eq_ok_iff.mp hcount
  obtain ⟨hlength, hfinds⟩ := hd.times htimes
  have hle : v.toNat ≤ (xs.flatMap write).length := by
    rw [← hlength]
    exact Encoder.length_le_flatMap hwrite xs
  rw [Encoder.counted, Encoder.count, hlength, UInt64.ofNat_toNat]
  exact Finds.count_bind (finds_encode_varuint v position) hle (hfinds _)

end Decoder

open Decoder

/-! ## Parts of a function -/

/-- Both tags of texts are read alike. -/
theorem Constant.finds_str {tag : UInt8} (htag : tag = 0x04 ∨ tag = 0x14) {position : Nat}
    {stored : Option String} {text : Bytes} (h : Finds string? (position + 1) stored text) :
    Finds (decode .canonical) position (.str (stored.getD "")) (tag :: text) := by
  have hcontent := h.bind_pure fun s => Constant.str (s.getD "")
  rcases htag with rfl | rfl
  · exact .cons (fun _ => rfl) hcontent
  · exact .cons (fun _ => rfl) hcontent

theorem Constant.rereads_decode : Rereads (decode .canonical) (encode .canonical) := by
  intro c c' k h position
  obtain ⟨bytes, hconst, -⟩ := Constant.reads_decode.sound h
  cases hconst with
  | nil => exact .cons (fun _ => rfl) (.pure _ _)
  | false => exact .cons (fun _ => rfl) (.pure _ _)
  | true => exact .cons (fun _ => rfl) (.pure _ _)
  | @int i word =>
      rw [encode, if_neg (by decide)]
      exact .cons (fun _ => rfl) ((finds_encode_fixed i (position + 1)).bind_pure Constant.int)
  | @float f word =>
      rw [encode, if_neg (by decide)]
      exact .cons (fun _ => rfl) ((finds_encode_fixed f (position + 1)).bind_pure Constant.float)
  | @str tag stored text _ htext =>
      have htag : ∀ s : String, (if s.utf8ByteSize ≤ shortLimit then ConstantTag.shortString.byte
          else ConstantTag.longString.byte) = 0x04 ∨
          (if s.utf8ByteSize ≤ shortLimit then ConstantTag.shortString.byte
          else ConstantTag.longString.byte) = 0x14 := by
        intro s
        split
        · exact .inl rfl
        · exact .inr rfl
      cases htext with
      | absent =>
          -- a missing text counts as an empty one, which is written with size 1
          have hempty : Encoder.string? (some "") = Encoder.varuint 1 := List.append_nil _
          rw [Option.getD_none, encode, hempty]
          exact finds_str (htag "") (finds_string?_none (v := 1) (Nat.le_refl 1) (position + 1))
      | @present s _ hne hsize =>
          exact finds_str (htag s) (finds_string?_some (.of_count hne hsize) (position + 1))

theorem UpvalueSource.rereads_decode : Rereads decode encode := by
  intro c c' u _ position
  obtain ⟨inStack, index, kind⟩ := u
  cases inStack with
  | false => exact fun _ => rfl
  | true => exact fun _ => rfl

theorem LineCheckpoint.rereads_decode : Rereads decode encode := by
  intro c c' l h position
  obtain ⟨pc, c₁, hpc, h⟩ := bind_eq_ok_iff.mp h
  obtain ⟨line, c₂, hline, h⟩ := bind_eq_ok_iff.mp h
  cases h
  exact (finds_encode_varuint pc position).bind ((finds_encode_varuint line _).bind_pure _)

theorem DebugInfo.rereads_decodeName :
    Rereads decodeName fun name => Encoder.string? (some name) := by
  intro c c' name h position
  obtain ⟨stored, c₁, hstored, h⟩ := bind_eq_ok_iff.mp h
  cases h
  cases stored with
  | none =>
      have hname : Readable anonymousName := ⟨by decide, by decide⟩
      exact (finds_string?_some hname position).bind_pure _
  | some s => exact (finds_string?_some (readable_of_string? hstored) position).bind_pure _

theorem LocalVariable.rereads_decode : Rereads decode encode := by
  intro c c' v h position
  obtain ⟨name, c₁, hname, h⟩ := bind_eq_ok_iff.mp h
  obtain ⟨startPc, c₂, hstart, h⟩ := bind_eq_ok_iff.mp h
  obtain ⟨endPc, c₃, hend, h⟩ := bind_eq_ok_iff.mp h
  cases h
  rw [encode, List.append_assoc]
  exact (DebugInfo.rereads_decodeName hname position).bind
    ((finds_encode_varuint startPc _).bind ((finds_encode_varuint endPc _).bind_pure _))

theorem DebugInfo.rereads_decode : Rereads decode encode := by
  intro c c' d h position
  obtain ⟨n, c₁, hcount, h⟩ := bind_eq_ok_iff.mp h
  obtain ⟨deltas, c₂, hdeltas, h⟩ := bind_eq_ok_iff.mp h
  obtain ⟨checkpoints, c₃, hcheckpoints, h⟩ := bind_eq_ok_iff.mp h
  obtain ⟨locals, c₄, hlocals, h⟩ := bind_eq_ok_iff.mp h
  obtain ⟨names, c₅, hnames, h⟩ := bind_eq_ok_iff.mp h
  cases h
  obtain ⟨v, -, rfl, -⟩ := Reads.count_eq_ok_iff.mp hcount
  obtain ⟨_, ⟨hlength, -⟩, -⟩ := (Reads.slice _).sound hdeltas
  rw [encode, Encoder.count, hlength, UInt64.ofNat_toNat]
  simp only [List.append_assoc]
  refine Finds.count_bind (finds_encode_varuint v position) ?_ <|
    (Rereads.slice _ hdeltas _).bind <|
    (LineCheckpoint.rereads_decode.counted (fun l => l.encode_form.ne_nil) hcheckpoints _).bind <|
    (LocalVariable.rereads_decode.counted LocalVariable.encode_ne_nil hlocals _).bind <|
    (rereads_decodeName.counted (fun _ => Encoder.string?_ne_nil _) hnames _).bind_pure _
  rw [List.length_append, hlength]
  exact Nat.le_add_right _ _

/-! ## Functions -/

theorem Prototype.encodeList_eq_flatMap (h : Header) (enclosing : Option String)
    (ps : List Prototype) : encodeList h enclosing ps = ps.flatMap (encode h enclosing) := by
  induction ps with
  | nil => rw [encodeList, List.flatMap_nil]
  | cons p rest ih => rw [encodeList, List.flatMap_cons, ih]

/-- What is written for a function, one part after the other. -/
theorem Prototype.encode_eq (h : Header) (enclosing : Option String) (p : Prototype) :
    p.encode h enclosing
      = Encoder.string? (storedSource enclosing p.source) ++
        (Encoder.varuint p.lineDefined ++ (Encoder.varuint p.lastLineDefined ++
        (p.paramCount :: p.varargFlag :: p.stackSize ::
        (Encoder.counted FixedWidth.encode p.code.toList ++
        (Encoder.counted (Constant.encode h) p.constants.toList ++
        (Encoder.counted UpvalueSource.encode p.upvalues ++
        (Encoder.counted (encode h p.source) p.protos ++ p.debug.encode))))))) := by
  have hprotos : ∀ source (ps : List Prototype), Encoder.counted (encode h source) ps
      = Encoder.count ps.length ++ encodeList h source ps := by
    intro source ps
    rw [encodeList_eq_flatMap]
    rfl
  cases p
  simp only [encode, hprotos, List.append_assoc, List.cons_append, List.nil_append]

/-- The source that is written gives back the one that has been read, whether it
is written or left out. -/
theorem Prototype.finds_storedSource {c c' : Cursor} {stored : Option String}
    (h : string? c = .ok stored c') (enclosing : Option String) (position : Nat) :
    ∃ stored', stored'.or enclosing = stored.or enclosing ∧
      Finds string? position stored'
        (Encoder.string? (storedSource enclosing (stored.or enclosing))) := by
  have habsent : Finds string? position none (Encoder.string? none) :=
    finds_string?_none (v := 0) (Nat.zero_le 1) position
  unfold storedSource
  split
  · next hsame => exact ⟨none, hsame.2.symm, habsent⟩
  · next hother =>
      cases stored with
      | some s =>
          exact ⟨some s, rfl, finds_string?_some (readable_of_string? h) position⟩
      | none =>
          -- a source that was taken over would have been left out
          cases enclosing with
          | none => exact ⟨none, rfl, habsent⟩
          | some s => exact absurd ⟨rfl, rfl⟩ hother

theorem Prototype.rereads_decode (levels : Nat) (enclosing : Option String) :
    Rereads (decode .canonical levels enclosing) (encode .canonical enclosing) := by
  induction levels generalizing enclosing with
  | zero =>
      intro c c' p h
      cases h
  | succ levels ih =>
      intro c c' p h position
      obtain ⟨stored, c₁, hstored, h⟩ := bind_eq_ok_iff.mp h
      obtain ⟨lineDefined, c₂, hfirst, h⟩ := bind_eq_ok_iff.mp h
      obtain ⟨lastLineDefined, c₃, hlast, h⟩ := bind_eq_ok_iff.mp h
      obtain ⟨paramCount, c₄, hparam, h⟩ := bind_eq_ok_iff.mp h
      obtain ⟨varargFlag, c₅, hvararg, h⟩ := bind_eq_ok_iff.mp h
      obtain ⟨stackSize, c₆, hstack, h⟩ := bind_eq_ok_iff.mp h
      obtain ⟨n, c₇, hcount, h⟩ := bind_eq_ok_iff.mp h
      obtain ⟨code, c₈, hcode, h⟩ := bind_eq_ok_iff.mp h
      obtain ⟨constants, c₉, hconstants, h⟩ := bind_eq_ok_iff.mp h
      obtain ⟨upvalues, c₁₀, hupvalues, h⟩ := bind_eq_ok_iff.mp h
      obtain ⟨protos, c₁₁, hprotos, h⟩ := bind_eq_ok_iff.mp h
      obtain ⟨debug, c₁₂, hdebug, h⟩ := bind_eq_ok_iff.mp h
      cases h
      obtain ⟨v, -, rfl, -⟩ := Reads.count_eq_ok_iff.mp hcount
      obtain ⟨_, ⟨hlength, -⟩, -⟩ := (Reads.array _).sound hcode
      obtain ⟨stored', hsource, hfinds⟩ := finds_storedSource hstored enclosing position
      have hnested := (ih (stored.or enclosing)).counted (encode_ne_nil _ _) hprotos
      have hwords : Encoder.counted FixedWidth.encode code
          = Encoder.varuint v ++ code.flatMap FixedWidth.encode := by
        rw [Encoder.counted, Encoder.count, hlength, UInt64.ofNat_toNat]
      have hcodeLength : v.toNat ≤ (code.flatMap FixedWidth.encode).length := by
        rw [← hlength]
        exact Encoder.length_le_flatMap (fun _ => Format.instruction_ne_nil rfl) code
      rw [encode_eq]
      dsimp only
      rw [← hsource] at hfinds hnested ⊢
      rw [hwords, List.append_assoc]
      -- all parts in the order in which they are stored
      refine hfinds.bind <| (finds_encode_varuint lineDefined _).bind <|
        (finds_encode_varuint lastLineDefined _).bind <|
        .byte_bind <| .byte_bind <| .byte_bind <|
        .count_bind (finds_encode_varuint v _) ?_ <| (Rereads.array _ hcode _).bind <|
        (Constant.rereads_decode.counted (Constant.encode_ne_nil _) hconstants _).bind <|
        (UpvalueSource.rereads_decode.counted (fun u => u.encode_form.ne_nil) hupvalues _).bind <|
        (hnested _).bind <| (DebugInfo.rereads_decode hdebug _).bind_pure _
      rw [List.length_append]
      exact hcodeLength.trans (Nat.le_add_right _ _)

/-! ## Chunks -/

theorem Header.finds_encode (h : Header) (position : Nat) :
    Finds decode position h h.encode := by
  rw [encode]
  simp only [List.append_assoc, List.cons_append, List.nil_append]
  exact (finds_encode_fixed h.magic position).bind <|
    (finds_encode_fixed h.version _).bind <| .byte_bind <| .byte_bind <| .byte_bind <|
    (finds_encode_fixed h.sanityInteger _).bind <| (finds_encode_fixed h.sanityFloat _).bind_pure _

/-- A chunk that has been read has the canonical header. -/
theorem Chunk.decoder_eq_ok {c₀ c' : Cursor} {c : Chunk} (h : decoder c₀ = .ok c c') :
    c.header = .canonical ∧ ∃ c₁ c₂,
      Prototype.decode .canonical (Prototype.nestingLimit + 1) none c₁ = .ok c.main c₂ := by
  obtain ⟨header, c₁, -, h⟩ := bind_eq_ok_iff.mp h
  cases hvalidate : header.validate with
  | error fault =>
      rw [hvalidate] at h
      cases h
  | ok _ =>
      obtain rfl := Header.validate_eq_ok_iff.mp hvalidate
      rw [hvalidate] at h
      obtain ⟨upvalueCount, c₂, -, h⟩ := bind_eq_ok_iff.mp h
      obtain ⟨main, c₃, hmain, h⟩ := bind_eq_ok_iff.mp h
      cases h
      exact ⟨rfl, c₂, _, hmain⟩

theorem Chunk.rereads_decoder : Rereads decoder encode := by
  intro c₀ c' c h position
  obtain ⟨hheader, c₁, c₂, hmain⟩ := decoder_eq_ok h
  obtain ⟨header, upvalueCount, main⟩ := c
  obtain rfl : header = .canonical := hheader
  rw [encode, List.append_assoc]
  refine (Header.finds_encode .canonical position).bind ?_
  rw [Header.validate_eq_ok_iff.mpr rfl]
  exact .byte_bind ((Prototype.rereads_decode _ _ hmain _).bind_pure _)

/-- **What has been read is read again from what is written for it.** Whatever
image a chunk comes from, the image that is written for the chunk decodes to that
very chunk, with nothing behind it, and so is written for what it decodes to. -/
theorem Chunk.decodeExact_reencoded {image : Bytes} {c : Chunk} (h : decode image = .ok c) :
    decodeExact c.encode = .ok c ∧ (decode c.encode).map encode = .ok c.encode := by
  obtain ⟨c', hd⟩ := decode_eq_ok_iff.mp h
  have hagain : decoder (.start c.encode) = .ok c ⟨0 + c.encode.length, []⟩ := by
    have hfinds := rereads_decoder hd 0 []
    rwa [List.append_nil] at hfinds
  constructor
  · rw [decodeExact_of_decoder hagain]
    exact if_pos rfl
  · rw [decode_eq_ok_iff.mpr ⟨_, hagain⟩]
    rfl

/-- An image in another form than the one that is written, with bytes behind it. -/
theorem Chunk.decodeExact_reencoded_irregular :
    decode (irregularImage ++ [0xff, 0x00]) = .ok irregular ∧
      irregular.encode ≠ irregularImage ∧ decodeExact irregular.encode = .ok irregular ∧
      (decode irregular.encode).map encode = .ok irregular.encode := by
  have hdecode : decode (irregularImage ++ [0xff, 0x00]) = .ok irregular := rfl
  refine ⟨hdecode, ?_, decodeExact_reencoded hdecode⟩
  have hlength : irregular.encode.length ≠ irregularImage.length := by cbv
  exact fun h => hlength (congrArg List.length h)

end LuaBytecode
