import Mathlib
import LuaBytecode.Host.Library
import LuaBytecode.Proofs.RoundTrip
import LuaBytecode.Proofs.Simulation

/-! # Runs of reloaded chunks

A chunk that is stored and loaded again has other sources and names in it. No
run depends on these, nor on lines, the vararg flag or the kinds of upvalues:
chunks that agree in everything else (`Prototype.bare`) run alike. Each function
of the one then stands for the function at the same place in the other, and
functions that were on the heap before stand for themselves.
-/

namespace LuaBytecode

/-! ## What a run can see of a function -/

def UpvalueSource.bare (u : UpvalueSource) : UpvalueSource := { u with kind := 0 }

mutual

/-- The function without sources, lines, names, the vararg flag and the kinds of
upvalues. -/
def Prototype.bare : Prototype → Prototype
  | ⟨_, _, _, paramCount, _, stackSize, code, constants, upvalues, protos, _⟩ =>
    ⟨none, 0, 0, paramCount, 0, stackSize, code, constants, upvalues.map UpvalueSource.bare,
      Prototype.bareList protos, {}⟩

def Prototype.bareList : List Prototype → List Prototype
  | [] => []
  | p :: rest => p.bare :: bareList rest

end

namespace Prototype

theorem bareList_eq_map (ps : List Prototype) : bareList ps = ps.map bare := by
  induction ps with
  | nil => rfl
  | cons p rest ih => rw [bareList, ih, List.map_cons]

@[simp] theorem bare_paramCount (p : Prototype) : p.bare.paramCount = p.paramCount := by
  cases p
  rfl

@[simp] theorem bare_stackSize (p : Prototype) : p.bare.stackSize = p.stackSize := by
  cases p
  rfl

@[simp] theorem bare_code (p : Prototype) : p.bare.code = p.code := by
  cases p
  rfl

@[simp] theorem bare_constants (p : Prototype) : p.bare.constants = p.constants := by
  cases p
  rfl

@[simp] theorem bare_upvalues (p : Prototype) :
    p.bare.upvalues = p.upvalues.map UpvalueSource.bare := by
  cases p
  rfl

@[simp] theorem bare_protos (p : Prototype) : p.bare.protos = p.protos.map bare := by
  cases p
  exact bareList_eq_map _

theorem places_eq_of_bare {p q : Prototype} (h : p.bare = q.bare) :
    p.upvalues.map UpvalueSource.place = q.upvalues.map UpvalueSource.place := by
  have hupvalues := congrArg (fun r => r.upvalues.map UpvalueSource.place) h
  simp only [bare_upvalues, List.map_map] at hupvalues
  exact hupvalues

mutual

theorem bare_normalize (enclosing : Option String) :
    ∀ p : Prototype, (p.normalize enclosing).bare = p.bare
  | ⟨_, _, _, _, _, _, _, _, _, protos, _⟩ => by
      rw [normalize, bare, bare, bareList_normalizeList _ protos]

theorem bareList_normalizeList (enclosing : Option String) :
    ∀ ps : List Prototype, bareList (normalizeList enclosing ps) = bareList ps
  | [] => rfl
  | p :: rest => by
      rw [normalizeList, bareList, bareList, bare_normalize enclosing p,
        bareList_normalizeList enclosing rest]

end

/-! ## Places in a tree of functions -/

/-- The nested function that a path leads to. -/
def at? (p : Prototype) : List Nat → Option Prototype
  | [] => some p
  | i :: path => p.protos[i]?.bind fun child => child.at? path

theorem at?_concat (p : Prototype) (path : List Nat) (i : Nat) :
    p.at? (path ++ [i]) = (p.at? path).bind fun q => q.protos[i]? := by
  induction path generalizing p with
  | nil =>
      show (p.protos[i]?.bind fun child => some child) = p.protos[i]?
      exact Option.bind_fun_some _
  | cons j path ih =>
      show (p.protos[j]?.bind fun child => child.at? (path ++ [i]))
        = (p.protos[j]?.bind fun child => child.at? path).bind fun q => q.protos[i]?
      simp only [ih, Option.bind_assoc]

theorem at?_bare (p : Prototype) (path : List Nat) :
    p.bare.at? path = (p.at? path).map bare := by
  induction path generalizing p with
  | nil => rfl
  | cons i path ih =>
      rw [at?, at?, bare_protos, List.getElem?_map]
      cases p.protos[i]? with
      | none => rfl
      | some child => exact ih child

/-- Functions at the same place agree where the whole trees do. -/
theorem bare_eq_of_at? {p q p' q' : Prototype} {path : List Nat} (h : p.bare = q.bare)
    (hp : p.at? path = some p') (hq : q.at? path = some q') : p'.bare = q'.bare := by
  have hpath := congrArg (fun r => r.at? path) h
  simp only [at?_bare, hp, hq, Option.map_some] at hpath
  exact Option.some.inj hpath

end Prototype

/-- What stands for what when `main'` runs in place of `main` on the heap `h`:
functions at the same place stand for each other, and those of the closures that
are there already for themselves. -/
def Counterpart (h : Heap) (main main' p q : Prototype) : Prop :=
  (∃ path, main.at? path = some p ∧ main'.at? path = some q) ∨
    p = q ∧ ∃ ref path, (h.closure ref).proto.at? path = some p

namespace Counterpart

variable {h : Heap} {main main' p q : Prototype}

theorem bare_eq (hbare : main.bare = main'.bare) (hpq : Counterpart h main main' p q) :
    p.bare = q.bare := by
  rcases hpq with ⟨path, hp, hq⟩ | ⟨rfl, -⟩
  · exact Prototype.bare_eq_of_at? hbare hp hq
  · rfl

/-- Nested functions of counterparts are counterparts. -/
theorem protos_get (hbare : main.bare = main'.bare) (hpq : Counterpart h main main' p q)
    {p' : Prototype} {i : Nat} (hp' : p.protos[i]? = some p') :
    ∃ q', q.protos[i]? = some q' ∧ Counterpart h main main' p' q' := by
  have hprotos := congrArg (fun r => r.protos[i]?) (bare_eq hbare hpq)
  simp only [Prototype.bare_protos, List.getElem?_map, hp', Option.map_some] at hprotos
  obtain ⟨q', hq', -⟩ := Option.map_eq_some_iff.mp hprotos.symm
  refine ⟨q', hq', ?_⟩
  rcases hpq with ⟨path, hp, hq⟩ | ⟨rfl, ref, path, hp⟩
  · refine .inl ⟨path ++ [i], ?_, ?_⟩
    · rw [Prototype.at?_concat, hp, Option.bind_some, hp']
    · rw [Prototype.at?_concat, hq, Option.bind_some, hq']
  · rw [hp'] at hq'
    refine .inr ⟨Option.some.inj hq', ref, path ++ [i], ?_⟩
    rw [Prototype.at?_concat, hp, Option.bind_some, hp']

/-- A run cannot tell counterparts apart. -/
def correspondence (h : Heap) (hbare : main.bare = main'.bare) : Correspondence where
  rel := Counterpart h main main'
  code hpq := by simpa using congrArg Prototype.code (bare_eq hbare hpq)
  constants hpq := by simpa using congrArg Prototype.constants (bare_eq hbare hpq)
  paramCount hpq := by simpa using congrArg Prototype.paramCount (bare_eq hbare hpq)
  stackSize hpq := by simpa using congrArg Prototype.stackSize (bare_eq hbare hpq)
  places hpq := Prototype.places_eq_of_bare (bare_eq hbare hpq)
  protos_length hpq := by
    simpa using congrArg (fun r => r.protos.length) (bare_eq hbare hpq)
  protos_get hpq hp' := protos_get hbare hpq hp'

end Counterpart

/-- Chunks that agree but for sources, lines, names, the vararg flag and the kinds
of upvalues run alike. -/
theorem Machine.callChunk_alike (host : Host) (m : Machine) (env : Value) {c c' : Chunk}
    (hcount : c.upvalueCount = c'.upvalueCount) (hbare : c.main.bare = c'.main.bare)
    (steps : Nat) :
    ((m.callChunk c env).run host steps).Alike (Counterpart m.heap c.main c'.main)
      ((m.callChunk c' env).run host steps) := by
  let K := Counterpart.correspondence m.heap hbare
  -- on the heap as it is at the start, every function stands for itself
  have hheap : m.heap.Alike K.rel m.heap :=
    ⟨rfl, rfl, rfl, fun ref => ⟨.inr ⟨rfl, ref, [], rfl⟩, rfl, rfl⟩⟩
  have hmachine : (m.withHeap (m.heap.newCells [env]).2).Alike K.rel
      (m.withHeap (m.heap.newCells [env]).2) :=
    ⟨rfl, rfl, rfl, rfl, hheap.newCells [env]⟩
  have hmain : K.rel c.main c'.main := .inl ⟨[], rfl, rfl⟩
  have hbegin : (m.callChunk c env).Alike K.rel (m.callChunk c' env) := by
    unfold callChunk callPrototype
    rw [hcount]
    exact hmachine.enter hmain _ _ _ .nil
  exact hbegin.run steps

/-- A chunk that takes up a whole image is also the one at its start. -/
theorem Chunk.decode_of_decodeExact {image : Bytes} {c : Chunk}
    (h : decodeExact image = .ok c) : decode image = .ok c := by
  unfold decodeExact at h
  unfold decode
  cases hd : decoder (.start image) with
  | error fault c' =>
      rw [hd] at h
      cases h
  | ok chunk c' =>
      rw [hd] at h
      dsimp only at h ⊢
      split at h
      · exact h
      · cases h

/-- **Reloading preserves runs.** A chunk with the canonical header whose nesting
is not too deep can be loaded from what is written for it. At every step, and in
how it ends, the run of the reloaded chunk is like the run of the chunk itself,
for every value of the environment and every state of the machine: the same
results or the same fault, the same counters and output, and the same heap with
each function replaced by its counterpart. The same holds of any two chunks that
differ in sources, lines, names, vararg flags and kinds of upvalues only. -/
theorem Machine.callChunk_reload (host : Host) (m : Machine) (env : Value) :
    (∀ c : Chunk, c.header = .canonical → c.main.height ≤ 200 →
      c.encode.length < UInt64.size →
      ∃ c', Chunk.decode c.encode = .ok c' ∧ Chunk.decodeExact c.encode = .ok c' ∧
        ∀ steps, ((m.callChunk c env).run host steps).Alike (Counterpart m.heap c.main c'.main)
          ((m.callChunk c' env).run host steps)) ∧
    ∀ c c' : Chunk, c.upvalueCount = c'.upvalueCount → c.main.bare = c'.main.bare →
      ∀ steps, ((m.callChunk c env).run host steps).Alike (Counterpart m.heap c.main c'.main)
        ((m.callChunk c' env).run host steps) := by
  refine ⟨fun c hheader hheight hsize => ?_, fun c c' hcount hbare steps =>
    callChunk_alike host m env hcount hbare steps⟩
  have hdecode : Chunk.decodeExact c.encode = .ok c.normalize :=
    Chunk.decodeExact_of_image (Chunk.encode_image hheader hheight hsize) hsize
  have hbare : c.main.bare = c.normalize.main.bare :=
    (Prototype.bare_normalize none c.main).symm
  have hcount : c.upvalueCount = c.normalize.upvalueCount := rfl
  exact ⟨c.normalize, Chunk.decode_of_decodeExact hdecode, hdecode, fun steps =>
    callChunk_alike host m env hcount hbare steps⟩

/-- The run of `Chunk.specimen` and that of the chunk loaded again end alike. -/
theorem Machine.callChunk_reload_specimen :
    ∃ c', Chunk.decode Chunk.specimen.encode = .ok c' ∧
      ((callChunk {} .specimen .nil).run (Host.library Value.text) 5).outcome?
        = some (.ok [.int 7]) ∧
      ((callChunk {} c' .nil).run (Host.library Value.text) 5).outcome?
        = some (.ok [.int 7]) := by
  obtain ⟨c', hdecode, -, halike⟩ := (callChunk_reload (Host.library Value.text) {} .nil).1
    .specimen rfl (by decide) (by cbv)
  have houtcome : ((callChunk {} .specimen .nil).run (Host.library Value.text) 5).outcome?
      = some (.ok [.int 7]) := by decide +kernel
  exact ⟨c', hdecode, houtcome, (halike 5).outcome?_eq ▸ houtcome⟩

end LuaBytecode
