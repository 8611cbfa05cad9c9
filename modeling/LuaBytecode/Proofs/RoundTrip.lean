import Mathlib
import LuaBytecode.Proofs.Recognition
import LuaBytecode.Proofs.Writing

/-! # Writing a chunk and reading it back

What comes back is known for every chunk. Only the canonical header is accepted,
only so many levels of functions are, and what is accepted comes back in normal
form. The second case needs a closer look at how decoding fails: on a tree that
is too high it gets through everything before the first function that lies too
deep.
-/

namespace LuaBytecode

open Format

namespace Decoder

variable {α β : Type}

theorem bind_of_ok {d : Decoder α} {k : α → Decoder β} {c c₁ : Cursor} {a : α}
    (h : d c = .ok a c₁) : (d >>= k) c = k a c₁ := by
  show EStateM.bind d k c = k a c₁
  unfold EStateM.bind
  rw [h]

theorem bind_of_error {d : Decoder α} {k : α → Decoder β} {c c₁ : Cursor}
    {fault : DecodeFault} (h : d c = .error fault c₁) :
    (d >>= k) c = .error fault c₁ := by
  show EStateM.bind d k c = .error fault c₁
  unfold EStateM.bind
  rw [h]

/-- The decoder fails on the bytes, whatever follows them. -/
def Stops (d : Decoder α) (fault : DecodeFault) (bytes : Bytes) : Prop :=
  ∀ c c' : Cursor, c.Past bytes c' → c.remaining < UInt64.size →
    ∃ c₁, d c = .error fault c₁

namespace Stops

variable {d : Decoder α} {k : α → Decoder β} {fault : DecodeFault} {x y : Bytes}

theorem bind (h : Stops d fault x) : Stops (d >>= k) fault x := by
  intro c c' hpast hsize
  obtain ⟨c₁, hd⟩ := h c c' hpast hsize
  exact ⟨c₁, bind_of_error hd⟩

theorem append (h : Stops d fault x) (y : Bytes) : Stops d fault (x ++ y) := by
  intro c c' hpast hsize
  obtain ⟨c₁, hpast₁, -⟩ := hpast.split
  exact h c c₁ hpast₁ hsize

theorem after {form : Form α} {a : α} (hd : Reads d form) (hx : form a x)
    (h : Stops (k a) fault y) : Stops (d >>= k) fault (x ++ y) := by
  intro c c' hpast hsize
  obtain ⟨c₁, hpast₁, hpast₂⟩ := hpast.split
  have hremaining := hpast₁.remaining_eq
  obtain ⟨c₂, hk⟩ := h c₁ c' hpast₂ (by omega)
  exact ⟨c₂, (bind_of_ok (hd.complete hx hpast₁ hsize)).trans hk⟩

theorem after_count {k : Nat → Decoder β} {n : Nat} (hx : Count n x) (hn : n ≤ y.length)
    (h : Stops (k n) fault y) : Stops (count >>= k) fault (x ++ y) := by
  intro c c' hpast hsize
  obtain ⟨c₁, hpast₁, hpast₂⟩ := hpast.split
  have hremaining₁ := hpast₁.remaining_eq
  have hremaining₂ := hpast₂.remaining_eq
  obtain ⟨v, hv, rfl⟩ := hx
  have hcount : count c = .ok v.toNat c₁ :=
    Reads.count_eq_ok_iff.mpr ⟨v, Reads.varuint.complete hv hpast₁ hsize, rfl, by omega⟩
  obtain ⟨c₂, hk⟩ := h c₁ c' hpast₂ (by omega)
  exact ⟨c₂, (bind_of_ok hcount).trans hk⟩

end Stops

end Decoder

open Decoder

/-! ## Trees that are too high -/

/-- Functions one after the other, of which one is too high. Those before it are
read. -/
theorem Prototype.times_decode_stops {levels : Nat} {enclosing : Option String}
    (hone : ∀ {p : Prototype} {bytes : Bytes}, Function enclosing p bytes → levels ≤ p.height →
      Stops (decode .canonical levels enclosing) (.nestingTooDeep nestingLimit) bytes) :
    ∀ {ps : List Prototype} {bytes : Bytes}, Functions enclosing ps bytes →
      levels < heightList ps →
      Stops (times ps.length (decode .canonical levels enclosing))
        (.nestingTooDeep nestingLimit) bytes
  | [], _, _, hlevels => absurd hlevels (Nat.not_lt_zero _)
  | p :: rest, _, .cons hhead htail, hlevels => by
      rw [heightList] at hlevels
      by_cases hp : levels ≤ p.height
      · exact (hone hhead hp).bind.append _
      · have hrest : levels < heightList rest := by omega
        exact .after (reads_decode levels enclosing) ⟨hhead, Nat.lt_of_not_le hp⟩
          (times_decode_stops hone htail hrest).bind

theorem Prototype.decode_stops {levels : Nat} {enclosing : Option String} {p : Prototype}
    {bytes : Bytes} (h : Function enclosing p bytes) (hlevels : levels ≤ p.height) :
    Stops (decode .canonical levels enclosing) (.nestingTooDeep nestingLimit) bytes := by
  induction levels generalizing enclosing p bytes with
  | zero => exact fun c _ _ _ => ⟨c, rfl⟩
  | succ levels ih =>
      cases h with
      | @intro _ stored _ source first last _ consts ups number items info hsource heq
          hfirst hlast hcode hconsts hups hnumber hitems hinfo =>
          obtain ⟨size, words, hsize, hwords, rfl⟩ := hcode
          have hlength := hwords.length_le instruction_ne_nil
          have hnumber_le : p.protos.length ≤ items.length :=
            (functions_iff_sequence.mp hitems).length_le Function.ne_nil
          rw [height_eq] at hlevels
          have hnested := times_decode_stops (fun h => ih h) hitems hlevels
          rw [heq] at hnested
          simp only [List.append_assoc, List.cons_append, List.nil_append]
          -- all that stands before the nested functions is read
          refine .after .string? hsource <| .after .varuint hfirst <| .after .varuint hlast <|
            .after .byte rfl <| .after .byte rfl <| .after .byte rfl <|
            .after_count hsize ?_ <| .after (.array _) ⟨rfl, hwords⟩ <|
            .after (.counted Constant.reads_decode Const.ne_nil) hconsts <|
            .after (.counted UpvalueSource.reads_decode Upvalue.ne_nil) hups <| ?_
          · rw [List.length_append]
            omega
          · rw [← List.append_assoc]
            exact (Stops.after_count hnumber hnumber_le hnested).bind.append _

/-! ## Chunks -/

theorem Chunk.encode_image {c : Chunk} (hheader : c.header = .canonical)
    (hheight : c.main.height ≤ 200) (hsize : c.encode.length < UInt64.size) :
    Image c.normalize c.encode := by
  rw [encode, List.length_append, hheader] at hsize
  refine ⟨hheader, ?_, c.main.encode .canonical none, ?_, ?_⟩
  · show (c.main.normalize none).height ≤ 200
    rwa [Prototype.height_normalize]
  · exact Prototype.encode_form c.main nofun (by omega)
  · rw [encode, hheader, Header.encode_canonical]
    rfl

/-- A decoder that stops on an image makes the decoding of the image fail. -/
theorem Chunk.decodeExact_of_stops {image : Bytes} {fault : DecodeFault}
    (h : Stops decoder fault image) (hsize : image.length < UInt64.size) :
    decodeExact image = .error fault := by
  obtain ⟨c₁, hd⟩ := h (.start image) ⟨image.length, []⟩
    ⟨(List.append_nil _).symm, (Nat.zero_add _).symm⟩ hsize
  unfold decodeExact
  rw [hd]

theorem Chunk.decoder_stops_of_header {h : Header} {field : HeaderField}
    (hfield : h.mismatch? = some field) :
    Stops decoder (.badHeader field (Header.canonical.get field) (h.get field)) h.encode := by
  have hvalidate : h.validate
      = .error (.badHeader field (Header.canonical.get field) (h.get field)) := by
    unfold Header.validate
    rw [hfield]
  rw [← List.append_nil h.encode]
  refine .after Header.reads_decode rfl ?_
  rw [hvalidate]
  exact fun c _ _ _ => ⟨c, rfl⟩

theorem Chunk.decoder_stops_of_height {c : Chunk} (hheader : c.header = .canonical)
    (hheight : 200 < c.main.height) (hsize : c.encode.length < UInt64.size) :
    Stops decoder (.nestingTooDeep 200) c.encode := by
  rw [encode, List.length_append, hheader] at hsize
  have hmain : Function none (c.main.normalize none) (c.main.encode .canonical none) :=
    Prototype.encode_form c.main nofun (by omega)
  have hlevels : Prototype.nestingLimit + 1 ≤ (c.main.normalize none).height := by
    rw [Prototype.height_normalize]
    exact hheight
  rw [encode, hheader, List.append_assoc]
  refine .after Header.reads_decode rfl ?_
  rw [Header.validate_eq_ok_iff.mpr rfl]
  exact .after .byte rfl (Prototype.decode_stops hmain hlevels).bind

/-- **The round trip.** What is written for a chunk is refused for its header if
that is not the canonical one, then for its nesting if a function lies more than
200 levels down, and otherwise comes back as the normal form of the chunk. -/
theorem Chunk.decodeExact_encode (c : Chunk) (hsize : c.encode.length < UInt64.size) :
    (c.header ≠ .canonical →
      ∃ field, c.header.mismatch? = some field ∧
        decodeExact c.encode = .error
          (.badHeader field (Header.canonical.get field) (c.header.get field))) ∧
    (c.header = .canonical → 200 < c.main.height →
      decodeExact c.encode = .error (.nestingTooDeep 200)) ∧
    (c.header = .canonical → c.main.height ≤ 200 →
      decodeExact c.encode = .ok c.normalize) := by
  refine ⟨fun hheader => ?_, fun hheader hheight => ?_, fun hheader hheight => ?_⟩
  · obtain ⟨field, hfield⟩ := Option.ne_none_iff_exists'.mp
      (fun h => hheader (Header.mismatch?_eq_none_iff.mp h))
    refine ⟨field, hfield, decodeExact_of_stops ?_ hsize⟩
    rw [encode, List.append_assoc]
    exact (decoder_stops_of_header hfield).append _
  · exact decodeExact_of_stops (decoder_stops_of_height hheader hheight hsize) hsize
  · exact decodeExact_of_image (encode_image hheader hheight hsize) hsize

/-- A chunk whose entry function calls the one nested in it, which has no source
and a local without a name, and returns its result. -/
def Chunk.specimen : Chunk :=
  .ofMain
    { source := some "@main"
      code := #[.ofABx .closure 0 0, .ofABC .call 0 1 1 false, .ofABC .ret1 0 0 0 false]
      protos :=
        [{ code := #[.ofAsBx .loadI 0 7, .ofABC .ret1 0 0 0 false]
           debug := { locals := [⟨"", 0, 2⟩] } }] }

/-- The source and the name are filled in, and with another header nothing is
read. -/
theorem Chunk.decodeExact_encode_specimen :
    decodeExact specimen.encode = .ok specimen.normalize ∧
      (specimen.normalize.main.protos.map fun p => (p.source, p.debug.locals))
        = [(some "@main", [⟨anonymousName, 0, 2⟩])] ∧
      ∃ field, decodeExact { specimen with header.integerSize := 4 }.encode
        = .error (.badHeader field (Header.canonical.get field)
          ({ Header.canonical with integerSize := 4 }.get field)) := by
  have hsize : specimen.encode.length < UInt64.size := by cbv
  have hsize' : { specimen with header.integerSize := 4 }.encode.length < UInt64.size := by cbv
  refine ⟨(decodeExact_encode specimen hsize).2.2 rfl (by decide), rfl, ?_⟩
  obtain ⟨field, -, hdecode⟩ := (decodeExact_encode _ hsize').1 (by decide)
  exact ⟨field, hdecode⟩

end LuaBytecode
