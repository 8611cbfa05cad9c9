import Mathlib
import LuaBytecode.Chunk.Encode
import LuaBytecode.Proofs.Format
import LuaBytecode.Proofs.Words

/-! # What is written is in the format

Not every chunk has an image of its own: an empty source or name is stored like
a missing one, and a missing one comes back as what stands for it. `normalize`
makes these replacements, and the bytes written for a chunk are an image of its
normal form.

Lengths are stored in 64 bits. Nothing is lost by that as long as the bytes
written are fewer than `2 ^ 64`, because no list and no text is longer than the
bytes it is written in.
-/

namespace LuaBytecode

/-! ## Normal forms -/

/-- The name that stands for a name once it has been stored. -/
def DebugInfo.normalName (name : String) : String :=
  if name = "" then anonymousName else name

def LocalVariable.normalize (v : LocalVariable) : LocalVariable :=
  { v with name := DebugInfo.normalName v.name }

def DebugInfo.normalize (d : DebugInfo) : DebugInfo :=
  { d with
    locals := d.locals.map LocalVariable.normalize
    upvalueNames := d.upvalueNames.map normalName }

/-- The source of a function inside one with the given source: a missing or
empty one is taken over. -/
def Prototype.effectiveSource (enclosing source : Option String) : Option String :=
  (source.filter (· ≠ "")).or enclosing

mutual

/-- A function inside one with the given source, with all sources filled in and
no empty names. -/
def Prototype.normalize (enclosing : Option String) : Prototype → Prototype
  | ⟨source, lineDefined, lastLineDefined, paramCount, varargFlag, stackSize, code, constants,
      upvalues, protos, debug⟩ =>
    ⟨effectiveSource enclosing source, lineDefined, lastLineDefined, paramCount, varargFlag,
      stackSize, code, constants, upvalues,
      Prototype.normalizeList (effectiveSource enclosing source) protos, debug.normalize⟩

def Prototype.normalizeList (enclosing : Option String) : List Prototype → List Prototype
  | [] => []
  | p :: rest => p.normalize enclosing :: normalizeList enclosing rest

end

def Chunk.normalize (c : Chunk) : Chunk :=
  { c with main := c.main.normalize none }

@[simp] theorem Prototype.length_normalizeList (enclosing : Option String)
    (ps : List Prototype) : (normalizeList enclosing ps).length = ps.length := by
  induction ps with
  | nil => rfl
  | cons p rest ih => rw [normalizeList, List.length_cons, List.length_cons, ih]

mutual

theorem Prototype.height_normalize (enclosing : Option String) :
    ∀ p : Prototype, (p.normalize enclosing).height = p.height
  | ⟨_, _, _, _, _, _, _, _, _, protos, _⟩ => by
      rw [normalize, height, height]
      exact heightList_normalizeList _ protos

theorem Prototype.heightList_normalizeList (enclosing : Option String) :
    ∀ ps : List Prototype, heightList (normalizeList enclosing ps) = heightList ps
  | [] => rfl
  | p :: rest => by
      rw [normalizeList, heightList, heightList, height_normalize enclosing p,
        heightList_normalizeList enclosing rest]

end

open Format

/-! ## Numbers and texts -/

namespace Encoder

theorem varuintHigh_lt {n : Nat} {b : UInt8} (hb : b ∈ varuintHigh n) : b < 128 := by
  induction n using varuintHigh.induct with
  | case1 =>
      rw [varuintHigh, if_pos rfl] at hb
      cases hb
  | case2 n hn ih =>
      rw [varuintHigh, if_neg hn, List.mem_append, List.mem_singleton] at hb
      rcases hb with hb | rfl
      · exact ih hb
      · rw [UInt8.lt_iff_toNat_lt, UInt8.toNat_ofNat']
        show n % 128 % 256 < 128
        omega

theorem groups_concat (bytes : Bytes) (b : UInt8) :
    groups (bytes ++ [b]) = groups bytes * 128 + b.toNat % 128 := by
  rw [groups, List.foldl_append]
  rfl

theorem groups_varuintHigh (n : Nat) : groups (varuintHigh n) = n := by
  induction n using varuintHigh.induct with
  | case1 =>
      rw [varuintHigh, if_pos rfl]
      rfl
  | case2 n hn ih =>
      rw [varuintHigh, if_neg hn, groups_concat, ih, UInt8.toNat_ofNat']
      show n / 128 * 128 + n % 128 % 256 % 128 = n
      omega

theorem varuint_form (v : UInt64) : Varuint v (varuint v) := by
  have hlast : (UInt8.ofNat (v.toNat % 128 + 128)).toNat = v.toNat % 128 + 128 := by
    rw [UInt8.toNat_ofNat']
    exact Nat.mod_eq_of_lt (by omega)
  refine ⟨_, _, rfl, fun b hb => varuintHigh_lt hb, ?_, ?_⟩
  · rw [UInt8.le_iff_toNat_le, hlast]
    show 128 ≤ v.toNat % 128 + 128
    omega
  · have hgroups : groups (varuint v) = v.toNat := by
      rw [varuint, groups_concat, groups_varuintHigh, hlast]
      omega
    rw [hgroups, UInt64.ofNat_toNat]

theorem count_form {n : Nat} (hn : n < UInt64.size) : Count n (count n) :=
  ⟨_, varuint_form _, (UInt64.toNat_ofNat_of_lt' hn).symm⟩

theorem varuint_ne_nil (v : UInt64) : varuint v ≠ [] := (varuint_form v).ne_nil

theorem string?_ne_nil (s : Option String) : string? s ≠ [] := by
  cases s with
  | none => exact varuint_ne_nil _
  | some s => exact List.append_ne_nil_of_left_ne_nil (varuint_ne_nil _) _

/-- An empty text is stored as a missing one. -/
theorem string?_form {s : Option String} (hsize : (string? s).length < UInt64.size) :
    Text (s.filter (· ≠ "")) (string? s) := by
  cases s with
  | none => exact .absent (Nat.zero_le 1) ⟨0, varuint_form 0, rfl⟩
  | some s =>
      have hpos := List.length_pos_of_ne_nil
        (varuint_ne_nil (UInt64.ofNat (s.utf8ByteSize + 1)))
      have hlength : s.utf8ByteSize + 1 < UInt64.size := by
        rw [string?, List.length_append, Bytes.length_ofText] at hsize
        omega
      by_cases hs : s = ""
      · subst hs
        have hnone : (some "").filter (· ≠ "") = none := rfl
        rw [hnone, string?, show Bytes.ofText "" = [] from rfl, List.append_nil]
        exact .absent (Nat.le_refl 1) (count_form hlength)
      · rw [Option.filter_some_pos (by simpa using hs)]
        exact .present hs (count_form hlength)

/-! ## Lists -/

theorem flatMap_form {α β : Type} {write : α → Bytes} {f : α → β} {form : Form β}
    {xs : List α} (h : ∀ x ∈ xs, form (f x) (write x)) :
    Sequence form (xs.map f) (xs.flatMap write) := by
  induction xs with
  | nil => exact .nil
  | cons x rest ih =>
      obtain ⟨hx, hrest⟩ := List.forall_mem_cons.mp h
      exact .cons hx (ih hrest)

theorem length_le_flatMap {α : Type} {write : α → Bytes} (hwrite : ∀ x, write x ≠ [])
    (xs : List α) : xs.length ≤ (xs.flatMap write).length := by
  have h : Sequence (fun x bytes => bytes = write x) (xs.map id) (xs.flatMap write) :=
    flatMap_form fun _ _ => rfl
  rw [List.map_id] at h
  refine h.length_le ?_
  rintro x bytes rfl
  exact hwrite x

/-- A list of elements, each of which is written in the form of its normal
form. -/
theorem counted_form {α β : Type} {write : α → Bytes} {f : α → β} {form : Form β}
    (hwrite : ∀ x, write x ≠ [])
    (h : ∀ x, (write x).length < UInt64.size → form (f x) (write x)) {xs : List α}
    (hsize : (counted write xs).length < UInt64.size) :
    Counted form (xs.map f) (counted write xs) := by
  rw [counted, List.length_append] at hsize
  have hlength := length_le_flatMap hwrite xs
  refine ⟨count xs.length, xs.flatMap write, ?_, flatMap_form fun x hx => h x ?_, rfl⟩
  · rw [List.length_map]
    exact count_form (by omega)
  · have hle : (write x).length ≤ (xs.flatMap write).length :=
      (List.sublist_flatten_of_mem (List.mem_map_of_mem hx)).length_le
    omega

theorem counted_form_self {α : Type} {write : α → Bytes} {form : Form α}
    (hwrite : ∀ x, write x ≠ [])
    (h : ∀ x, (write x).length < UInt64.size → form x (write x)) {xs : List α}
    (hsize : (counted write xs).length < UInt64.size) :
    Counted form xs (counted write xs) := by
  have hmap : Counted form (xs.map id) (counted write xs) := counted_form hwrite h hsize
  rwa [List.map_id] at hmap

end Encoder

open Encoder

/-! ## Parts of a function -/

theorem Constant.encode_ne_nil (h : Header) (k : Constant) : k.encode h ≠ [] := by
  cases k with
  | bool b => cases b <;> exact List.cons_ne_nil _ _
  | _ => exact List.cons_ne_nil _ _

theorem Constant.encode_form {k : Constant}
    (hsize : (k.encode .canonical).length < UInt64.size) :
    Const k (k.encode .canonical) := by
  cases k with
  | nil => exact .nil
  | bool b =>
      cases b with
      | false => exact .false
      | true => exact .true
  | int i =>
      rw [encode, if_neg (by decide)]
      exact .int rfl
  | float f =>
      rw [encode, if_neg (by decide)]
      exact .float rfl
  | str s =>
      rw [encode, List.length_cons] at hsize
      have htext := string?_form (Nat.lt_of_succ_lt hsize)
      -- an empty text comes back empty, though it is stored as a missing one
      have hback : ((some s).filter (· ≠ "")).getD "" = s := by
        by_cases hs : s = ""
        · rw [hs]
          rfl
        · rw [Option.filter_some_pos (by simpa using hs)]
          rfl
      have htag : ∀ tag : UInt8, tag = 0x04 ∨ tag = 0x14 →
          Const (.str s) (tag :: string? (some s)) := by
        intro tag htag
        have h := Const.str htag htext
        rwa [hback] at h
      rw [encode]
      split
      · exact htag _ (.inl rfl)
      · exact htag _ (.inr rfl)

theorem UpvalueSource.encode_form (u : UpvalueSource) : Upvalue u u.encode := by
  obtain ⟨inStack, index, kind⟩ := u
  cases inStack with
  | false => exact ⟨0, rfl, rfl⟩
  | true => exact ⟨1, rfl, rfl⟩

theorem LineCheckpoint.encode_form (l : LineCheckpoint) : Checkpoint l l.encode :=
  ⟨_, _, varuint_form l.pc, varuint_form l.line, rfl⟩

theorem DebugInfo.name_form {name : String}
    (hsize : (string? (some name)).length < UInt64.size) :
    Name (normalName name) (string? (some name)) := by
  refine ⟨_, string?_form hsize, ?_⟩
  unfold normalName
  split
  · next hname =>
      rw [hname]
      rfl
  · next hname =>
      rw [Option.filter_some_pos (by simpa using hname)]
      rfl

theorem LocalVariable.encode_ne_nil (v : LocalVariable) : v.encode ≠ [] := by
  rw [encode, List.append_assoc]
  exact List.append_ne_nil_of_left_ne_nil (string?_ne_nil _) _

theorem LocalVariable.encode_form {v : LocalVariable}
    (hsize : v.encode.length < UInt64.size) : Local v.normalize v.encode := by
  rw [encode, List.length_append, List.length_append] at hsize
  exact ⟨_, _, _, DebugInfo.name_form (by omega), varuint_form v.startPc,
    varuint_form v.endPc, rfl⟩

theorem DebugInfo.encode_form {d : DebugInfo} (hsize : d.encode.length < UInt64.size) :
    Debug d.normalize d.encode := by
  simp only [encode, List.length_append] at hsize
  have hdeltas : Count d.normalize.lineDeltas.length (count d.lineDeltas.length) :=
    count_form (show d.lineDeltas.length < UInt64.size by omega)
  have hcheckpoints : Counted Checkpoint d.checkpoints
      (counted LineCheckpoint.encode d.checkpoints) :=
    counted_form_self (fun l => (LineCheckpoint.encode_form l).ne_nil)
      (fun l _ => LineCheckpoint.encode_form l) (by omega)
  have hlocals : Counted Local d.normalize.locals
      (counted LocalVariable.encode d.locals) :=
    counted_form LocalVariable.encode_ne_nil (fun _ => LocalVariable.encode_form) (by omega)
  have hnames : Counted Name d.normalize.upvalueNames
      (counted (fun name => string? (some name)) d.upvalueNames) :=
    counted_form (fun _ => string?_ne_nil _) (fun _ => name_form) (by omega)
  exact ⟨_, _, _, _, hdeltas, hcheckpoints, hlocals, hnames, rfl⟩

/-! ## Functions -/

/-- Writing compares a source with the enclosing one as it is, reading takes over
the effective one. The two agree when an enclosing source that is not empty is
effective. -/
def Prototype.SourcesAgree (enclosing effective : Option String) : Prop :=
  ∀ s, enclosing = some s → s ≠ "" → effective = some s

theorem Prototype.storedSource_or {enclosing effective source : Option String}
    (h : SourcesAgree enclosing effective) :
    ((storedSource enclosing source).filter (· ≠ "")).or effective
      = effectiveSource effective source := by
  unfold storedSource effectiveSource
  split
  · next hsame =>
      obtain ⟨hsome, rfl⟩ := hsame
      obtain ⟨s, rfl⟩ := Option.isSome_iff_exists.mp hsome
      by_cases hs : s = ""
      · rw [hs]
        rfl
      · rw [Option.filter_some_pos (by simpa using hs), h s rfl hs]
        rfl
  · rfl

theorem Prototype.sourcesAgree_effectiveSource (enclosing source : Option String) :
    SourcesAgree source (effectiveSource enclosing source) := by
  intro s hsource hs
  rw [effectiveSource, hsource, Option.filter_some_pos (by simpa using hs)]
  rfl

theorem Prototype.encode_ne_nil (h : Header) (enclosing : Option String) (p : Prototype) :
    p.encode h enclosing ≠ [] := by
  cases p
  simp only [encode, List.append_assoc]
  exact List.append_ne_nil_of_left_ne_nil (string?_ne_nil _) _

theorem Prototype.length_le_encodeList (h : Header) (enclosing : Option String)
    (ps : List Prototype) : ps.length ≤ (encodeList h enclosing ps).length := by
  induction ps with
  | nil => exact Nat.zero_le _
  | cons p rest ih =>
      have hpos := List.length_pos_of_ne_nil (encode_ne_nil h enclosing p)
      rw [encodeList, List.length_append, List.length_cons]
      omega

mutual

theorem Prototype.encode_form : ∀ (p : Prototype) {enclosing effective : Option String},
    SourcesAgree enclosing effective →
    (p.encode .canonical enclosing).length < UInt64.size →
    Function effective (p.normalize effective) (p.encode .canonical enclosing)
  | ⟨source, lineDefined, lastLineDefined, paramCount, varargFlag, stackSize, code, constants,
      upvalues, protos, debug⟩, enclosing, effective, hagree, hsize => by
      rw [encode] at hsize ⊢
      -- each part is shorter than the whole, so every count in it fits
      simp only [List.length_append] at hsize
      have hsource := string?_form (s := storedSource enclosing source) (by omega)
      have hcode : Counted (Word Instruction) code.toList
          (counted FixedWidth.encode code.toList) := by
        refine counted_form_self ?_ ?_ (by omega)
        · exact fun i => instruction_ne_nil rfl
        · exact fun i _ => rfl
      have hconstants : Counted Const constants.toList
          (counted (Constant.encode .canonical) constants.toList) :=
        counted_form_self (Constant.encode_ne_nil _) (fun _ => Constant.encode_form) (by omega)
      have hupvalues : Counted Upvalue upvalues (counted UpvalueSource.encode upvalues) :=
        counted_form_self (fun u => u.encode_form.ne_nil) (fun u _ => u.encode_form) (by omega)
      have hlength := length_le_encodeList .canonical source protos
      have hprotos : Functions (effectiveSource effective source)
          (normalizeList (effectiveSource effective source) protos)
          (encodeList .canonical source protos) :=
        encodeList_form protos (sourcesAgree_effectiveSource effective source) (by omega)
      have hcount : Count (normalizeList (effectiveSource effective source) protos).length
          (count protos.length) := by
        rw [length_normalizeList]
        exact count_form (by omega)
      have hdebug := DebugInfo.encode_form (d := debug) (by omega)
      rw [normalize]
      have h := Function.intro
        (p := ⟨effectiveSource effective source, lineDefined, lastLineDefined, paramCount,
          varargFlag, stackSize, code, constants, upvalues, _, debug.normalize⟩)
        hsource (storedSource_or hagree).symm (varuint_form lineDefined)
        (varuint_form lastLineDefined) hcode hconstants hupvalues hcount hprotos hdebug
      exact h

theorem Prototype.encodeList_form : ∀ (ps : List Prototype) {enclosing effective : Option String},
    SourcesAgree enclosing effective →
    (encodeList .canonical enclosing ps).length < UInt64.size →
    Functions effective (normalizeList effective ps) (encodeList .canonical enclosing ps)
  | [], _, _, _, _ => .nil
  | p :: rest, enclosing, effective, hagree, hsize => by
      rw [encodeList, List.length_append] at hsize
      rw [encodeList, normalizeList]
      exact .cons (encode_form p hagree (by omega)) (encodeList_form rest hagree (by omega))

end

end LuaBytecode
