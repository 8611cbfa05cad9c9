import Mathlib
import LuaBytecode.Proofs.Actions
import LuaBytecode.Proofs.Effects

/-! # What instructions look up

The constants of a function and the upvalues of an activation are kept in pools, and instructions
refer to them by index. Which entry an instruction looks up shows when the pool is filled anew. If
there is no entry with its index, the instruction fails with a fault that names the index, unless it
has failed before; and if all other entries are changed, it does the same as before.
-/

namespace LuaBytecode

/-- A part of an activation whose entries instructions refer to by index. It can be filled anew,
which changes nothing else. -/
structure Pool (β : Type) where
  what : Indexed
  entries : Frame → List β
  refill : Frame → List β → Frame
  entries_refill : ∀ f xs, entries (refill f xs) = xs
  refill_entries : ∀ f, refill f (entries f) = f
  registers_refill : ∀ f xs, (refill f xs).registers = f.registers
  refill_pc : ∀ (f : Frame) xs pc, refill { f with pc } xs = { refill f xs with pc }

namespace Pool

/-- The constants of the function. -/
def constants : Pool Constant where
  what := .constant
  entries f := f.proto.constants.toList
  refill f xs := { f with proto.constants := xs.toArray }
  entries_refill _ _ := rfl
  refill_entries f := by
    obtain ⟨proto, _, _, _, _⟩ := f
    cases proto
    rfl
  registers_refill _ _ := rfl
  refill_pc _ _ _ := rfl

/-- The cells of the upvalues. -/
def upvalues : Pool CellRef where
  what := .upvalue
  entries f := f.upvalues
  refill f xs := { f with upvalues := xs }
  entries_refill _ _ := rfl
  refill_entries _ := rfl
  registers_refill _ _ := rfl
  refill_pc _ _ _ := rfl

variable {α β : Type}

/-- The pool of an activation filled anew. -/
def put (pool : Pool β) (xs : List β) (s : Scope) : Scope := ⟨pool.refill s.frame xs, s.heap⟩

/-- The pool filled anew in the state that an action has ended in. -/
def putAfter (pool : Pool β) (xs : List β) :
    EStateM.Result Fault Scope α → EStateM.Result Fault Scope α
  | .ok a s => .ok a (pool.put xs s)
  | .error fault s => .error fault (pool.put xs s)

theorem pc_refill (pool : Pool β) (f : Frame) (xs : List β) : (pool.refill f xs).pc = f.pc := by
  have hpc : pool.refill f xs = { pool.refill f xs with pc := f.pc } := pool.refill_pc f xs f.pc
  rw [hpc]

theorem put_entries (pool : Pool β) (s : Scope) : pool.put (pool.entries s.frame) s = s := by
  rw [put, pool.refill_entries]

end Pool

namespace Exec

variable {α β γ : Type} {pool : Pool β} {R : List β → List β → Prop} {n : Nat}

/-! ## Actions that do not depend on a pool -/

/-- The action does the same when the pool is filled anew with entries that are in the relation
`R` to those before. -/
def Stable (pool : Pool β) (R : List β → List β → Prop) (x : Exec α) : Prop :=
  ∀ s xs, R (pool.entries s.frame) xs → x (pool.put xs s) = pool.putAfter xs (x s)

/-- The action does not depend on the pool. -/
abbrev Indifferent (pool : Pool β) (x : Exec α) : Prop := Stable pool (fun _ _ => True) x

/-- As many entries as before, and among them the same ones with the given indices. -/
def AgreeOn (indices : Set Nat) (xs ys : List β) : Prop :=
  ys.length = xs.length ∧ ∀ n ∈ indices, ys[n]? = xs[n]?

/-- What the action does depends on the entries with the given indices alone, and on how many
entries there are. -/
abbrev DependsOn (pool : Pool β) (indices : Set Nat) (x : Exec α) : Prop :=
  Stable pool (AgreeOn indices) x

theorem agreeOn_refl (indices : Set Nat) (xs : List β) : AgreeOn indices xs xs :=
  ⟨rfl, fun _ _ => rfl⟩

theorem stable_pure (a : α) : Stable pool R (pure a : Exec α) := fun _ _ _ => rfl

theorem stable_throw (fault : Fault) : Stable pool R (throw fault : Exec α) := fun _ _ _ => rfl

/-- A stable action leaves the pool as it is. -/
theorem Stable.entries_eq {x : Exec α} (hx : Stable pool R x) (hR : ∀ xs, R xs xs) {s s' : Scope}
    {a : α} (h : x s = .ok a s') : pool.entries s'.frame = pool.entries s.frame := by
  have hsame := hx s (pool.entries s.frame) (hR _)
  rw [pool.put_entries, h] at hsame
  injection hsame with _ hs'
  calc pool.entries s'.frame = pool.entries (pool.put (pool.entries s.frame) s').frame := by
        rw [← hs']
    _ = pool.entries s.frame := pool.entries_refill _ _

theorem stable_bind (hR : ∀ xs, R xs xs) {x : Exec α} {f : α → Exec γ} (hx : Stable pool R x)
    (hf : ∀ a, Stable pool R (f a)) : Stable pool R (x >>= f) := by
  intro s xs hxs
  have hput := hx s xs hxs
  cases h : x s with
  | ok a s' =>
      rw [h] at hput
      rw [bind_ok h, bind_ok hput]
      refine hf a s' xs ?_
      rwa [hx.entries_eq hR h]
  | error fault s' =>
      rw [h] at hput
      rw [bind_error h, bind_error hput]
      rfl

theorem stable_lookup (what : Indexed) (ys : List α) (i : Nat) :
    Stable pool R (lookup what ys i) := by
  intro s xs _
  cases h : ys[i]? with
  | some y =>
      rw [lookup_some h, lookup_some h]
      rfl
  | none =>
      rw [lookup_none h, lookup_none h]
      rfl

theorem stable_cell (r : Nat) : Stable pool R (cell r) := by
  intro s xs hxs
  have hregisters : (pool.put xs s).frame.registers = s.frame.registers :=
    pool.registers_refill _ _
  rw [cell, cell, hregisters]
  exact stable_lookup _ _ _ s xs hxs

theorem stable_tableOf (action : Action) (v : Value) : Stable pool R (tableOf action v) := by
  intro s xs _
  cases v <;> rfl

theorem stable_skip : Stable pool R skip := by
  intro s xs _
  have hmove : pool.refill { s.frame with pc := s.frame.pc + 1 } xs
      = { pool.refill s.frame xs with pc := (pool.refill s.frame xs).pc + 1 } := by
    rw [pool.refill_pc, pool.pc_refill]
  show EStateM.Result.ok () (Scope.mk _ s.heap) = EStateM.Result.ok () (Scope.mk _ s.heap)
  rw [hmove]
  rfl

theorem stable_ofExcept (x : Except Fault α) : Stable pool R (ofExcept x) := by
  intro s xs _
  cases x <;> rfl

/-- What is done with registers and tables does not depend on a pool. -/
theorem stable_ordinary (hR : ∀ xs, R xs xs) : Ordinary (Stable pool R) where
  pure := stable_pure
  bind := stable_bind hR
  cell := stable_cell
  readCell _ _ _ _ := rfl
  writeCell _ _ _ _ _ := rfl
  tableOf := stable_tableOf
  readTable _ _ _ _ := rfl
  writeTable _ _ _ _ _ := rfl
  skip := stable_skip
  wrongKey _ _ _ := stable_throw _
  nilKey _ := stable_throw _

/-! ## Looking up an entry -/

/-- If the action gets to look for the entry, it fails where there is none. Otherwise it has failed
before, whatever there is in the pool. -/
def LooksUp (pool : Pool β) (n : Nat) (x : Exec α) : Prop :=
  ∀ s, (∃ fault s', ∀ xs, x (pool.put xs s) = .error fault (pool.put xs s')) ∨
    ∀ xs, xs[n]? = none →
      ∃ s', x (pool.put xs s) = .error (.outOfRange pool.what n xs.length) s'

theorem LooksUp.bind {x : Exec α} (hx : LooksUp pool n x) (f : α → Exec γ) :
    LooksUp pool n (x >>= f) := by
  intro s
  rcases hx s with ⟨fault, s', hbefore⟩ | hmissing
  · exact .inl ⟨fault, s', fun xs => bind_error (hbefore xs)⟩
  · right
    intro xs hxs
    obtain ⟨s', hs'⟩ := hmissing xs hxs
    exact ⟨s', bind_error hs'⟩

theorem looksUp_after {x : Exec α} {f : α → Exec γ} (hx : Indifferent pool x)
    (hf : ∀ a, LooksUp pool n (f a)) : LooksUp pool n (x >>= f) := by
  intro s
  cases h : x s with
  | error fault s' =>
      refine .inl ⟨fault, s', fun xs => bind_error ?_⟩
      rw [hx s xs trivial, h]
      rfl
  | ok a s' =>
      have hput (xs : List β) : (x >>= f) (pool.put xs s) = f a (pool.put xs s') := by
        refine bind_ok ?_
        rw [hx s xs trivial, h]
        rfl
      simp only [hput]
      exact hf a s'

theorem looksUp_constant (n : Nat) : LooksUp .constants n (constant n) := by
  refine fun s => .inr fun xs hxs => ⟨_, constant_none ?_⟩
  exact (List.getElem?_toArray ..).trans hxs

theorem looksUp_upvalueCell (n : Nat) : LooksUp .upvalues n (upvalueCell n) :=
  fun _ => .inr fun _ hxs => ⟨_, upvalueCell_none hxs⟩

theorem dependsOn_constant {indices : Set Nat} (hn : n ∈ indices) :
    DependsOn .constants indices (constant n) := by
  intro s xs ⟨hlength, hagree⟩
  have hsize : xs.length = s.frame.proto.constants.size := hlength
  have hentry : xs[n]? = s.frame.proto.constants[n]? := by
    rw [hagree n hn]
    exact Array.getElem?_toList
  have hput : (Pool.constants.put xs s).frame.proto.constants[n]? = xs[n]? :=
    List.getElem?_toArray ..
  cases h : xs[n]? with
  | some k =>
      rw [constant_some (hput.trans h), constant_some (hentry.symm.trans h)]
      rfl
  | none =>
      rw [constant_none (hput.trans h), constant_none (hentry.symm.trans h), ← hsize]
      rfl

theorem dependsOn_upvalueCell {indices : Set Nat} (hn : n ∈ indices) :
    DependsOn .upvalues indices (upvalueCell n) := by
  intro s xs ⟨hlength, hagree⟩
  have hsize : xs.length = s.frame.upvalues.length := hlength
  have hentry : xs[n]? = s.frame.upvalues[n]? := hagree n hn
  have hput : (Pool.upvalues.put xs s).frame.upvalues[n]? = xs[n]? := rfl
  cases h : xs[n]? with
  | some ref =>
      rw [upvalueCell_some (hput.trans h), upvalueCell_some (hentry.symm.trans h)]
      rfl
  | none =>
      rw [upvalueCell_none (hput.trans h), upvalueCell_none (hentry.symm.trans h), ← hsize]
      rfl

theorem stable_upvalueCell {R : List Constant → List Constant → Prop} (i : Nat) :
    Stable .constants R (upvalueCell i) :=
  fun s xs hxs => stable_lookup .upvalue s.frame.upvalues i s xs hxs

theorem stable_constant {R : List CellRef → List CellRef → Prop} (i : Nat) :
    Stable .upvalues R (constant i) := by
  intro s xs _
  have hsame : (Pool.upvalues.put xs s).frame.proto = s.frame.proto := rfl
  cases h : s.frame.proto.constants[i]? with
  | some k =>
      rw [constant_some h, constant_some (by rw [hsame, h])]
      rfl
  | none =>
      rw [constant_none h, constant_none (by rw [hsame, h])]
      rfl

theorem dependsOn_ordinary (indices : Set Nat) : Ordinary (DependsOn pool indices) :=
  stable_ordinary (agreeOn_refl indices)

theorem indifferent_ordinary : Ordinary (Indifferent pool) := stable_ordinary fun _ => trivial

/-- The action looks up the entry with index `n`, and what it does depends on no entries but this
one and the others that are given. -/
structure Consults (pool : Pool β) (n : Nat) (others : Set Nat) (x : Exec α) : Prop where
  looksUp : LooksUp pool n x
  dependsOn : DependsOn pool (insert n others) x

/-! ## Instructions with a constant -/

section Constants

variable {others : Set Nat}

theorem dependsOn_constant_self (n : Nat) (others : Set Nat) :
    DependsOn .constants (insert n others) (constant n) :=
  dependsOn_constant (Set.mem_insert n others)

theorem consults_loadK (a n : Nat) : Consults .constants n others (assign a (constant n)) where
  looksUp := (looksUp_constant n).bind _
  dependsOn := (dependsOn_ordinary _).assign a (dependsOn_constant_self n others)

theorem consults_getField (a b n : Nat) :
    Consults .constants n others (assign a (do
      let source ← reg b
      let k ← constant n
      lenientGet source k)) where
  looksUp :=
    (looksUp_after (indifferent_ordinary.reg b) fun _ => (looksUp_constant n).bind _).bind _
  dependsOn :=
    have hP := dependsOn_ordinary (insert n others)
    hP.assign a <| hP.bind (hP.reg b) fun _ =>
      hP.bind (dependsOn_constant_self n others) fun _ => hP.lenientGet _ _

theorem consults_arithmetic {op : Opcode} {arith : ArithOp}
    (hop : ArithOp.ofOpcode? op = some arith) (a b n : Nat) :
    Consults .constants n others (assign a (arithmetic op (reg b) (constant n))) where
  looksUp := by
    unfold arithmetic
    rw [hop]
    exact (looksUp_after (indifferent_ordinary.reg b) fun _ => (looksUp_constant n).bind _).bind _
  dependsOn :=
    have hP := dependsOn_ordinary (insert n others)
    hP.assign a <| hP.arithmetic hop (fun _ _ => stable_ofExcept _) (hP.reg b)
      (dependsOn_constant_self n others)

theorem consults_eqK (expected : Bool) (a n : Nat) (test : Value → Value → Bool) :
    Consults .constants n others (skipUnless expected (compareWith a (constant n) test)) where
  looksUp :=
    (looksUp_after (indifferent_ordinary.reg a) fun _ => (looksUp_constant n).bind _).bind _
  dependsOn :=
    have hP := dependsOn_ordinary (insert n others)
    hP.skipUnless expected (hP.compareWith a (dependsOn_constant_self n others) test)

theorem consults_self (a b n : Nat) : Consults .constants n others (self a b (constant n)) where
  looksUp := looksUp_after (indifferent_ordinary.reg b) fun _ => (looksUp_constant n).bind _
  dependsOn := (dependsOn_ordinary _).self a b (dependsOn_constant_self n others)

theorem consults_setField (a n : Nat) {value : Exec Value}
    (hvalue : DependsOn .constants (insert n others) value) :
    Consults .constants n others (setRegisterField a (constant n) value) where
  looksUp := looksUp_after (indifferent_ordinary.reg a) fun _ => (looksUp_constant n).bind _
  dependsOn := (dependsOn_ordinary _).setRegisterField a (dependsOn_constant_self n others) hvalue

theorem consults_getTabUp_key (a i n : Nat) :
    Consults .constants n others (assign a (upvalueField i n)) where
  looksUp := by
    have hupvalue := indifferent_ordinary.upvalue (stable_upvalueCell i)
    refine (looksUp_after hupvalue fun _ => looksUp_after (stable_tableOf _ _) fun _ => ?_).bind _
    exact (looksUp_constant n).bind _
  dependsOn :=
    have hP := dependsOn_ordinary (insert n others)
    hP.assign a (hP.upvalueField (stable_upvalueCell i) (dependsOn_constant_self n others))

theorem consults_setTabUp_key (a n : Nat) {value : Exec Value}
    (hvalue : DependsOn .constants (insert n others) value) :
    Consults .constants n others (setUpvalueField a n value) where
  looksUp := by
    have hupvalue := indifferent_ordinary.upvalue (stable_upvalueCell a)
    exact looksUp_after hupvalue fun _ => (looksUp_constant n).bind _
  dependsOn := (dependsOn_ordinary _).setUpvalueField (stable_upvalueCell a)
    (dependsOn_constant_self n others) hvalue

end Constants

/-! ## Instructions with an upvalue -/

section Upvalues

variable {others : Set Nat}

theorem dependsOn_upvalueCell_self (n : Nat) (others : Set Nat) :
    DependsOn .upvalues (insert n others) (upvalueCell n) :=
  dependsOn_upvalueCell (Set.mem_insert n others)

theorem looksUp_upvalue (n : Nat) : LooksUp .upvalues n (upvalue n) :=
  (looksUp_upvalueCell n).bind _

theorem consults_getUpvalue (a n : Nat) : Consults .upvalues n others (assign a (upvalue n)) where
  looksUp := (looksUp_upvalue n).bind _
  dependsOn :=
    have hP := dependsOn_ordinary (insert n others)
    hP.assign a (hP.upvalue (dependsOn_upvalueCell_self n others))

theorem consults_setUpvalue (a n : Nat) :
    Consults .upvalues n others (Exec.setUpvalue a n) where
  looksUp := looksUp_after (indifferent_ordinary.reg a) fun _ => (looksUp_upvalueCell n).bind _
  dependsOn := (dependsOn_ordinary _).setUpvalue a (dependsOn_upvalueCell_self n others)

theorem consults_getTabUp (a n key : Nat) :
    Consults .upvalues n others (assign a (upvalueField n key)) where
  looksUp := ((looksUp_upvalue n).bind _).bind _
  dependsOn :=
    have hP := dependsOn_ordinary (insert n others)
    hP.assign a (hP.upvalueField (dependsOn_upvalueCell_self n others) (stable_constant key))

theorem consults_setTabUp (n key : Nat) (i : Instruction) :
    Consults .upvalues n others (setUpvalueField n key (registerOrConstant i)) where
  looksUp := (looksUp_upvalue n).bind _
  dependsOn :=
    have hP := dependsOn_ordinary (insert n others)
    hP.setUpvalueField (dependsOn_upvalueCell_self n others) (stable_constant key)
      (hP.registerOrConstant fun _ => stable_constant _)

end Upvalues

end Exec

end LuaBytecode
