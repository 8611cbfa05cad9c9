import Mathlib
import LuaBytecode.Proofs.ListingSums
import LuaBytecode.Proofs.Lookups
import LuaBytecode.Proofs.NumberText
import LuaBytecode.Proofs.RunFaults

/-! # What listings tell

A line of a listing may end in an annotation, and what it says is true of the runs of the code. The
target that is given for a jump is the place where a run goes on when it takes the jump, counted
from one; a target below one is the only reason for a fault of the jump. The constant and the
upvalue that are named are those which the instruction looks up, and a question mark stands for a
constant exactly if there is none to be found.
-/

namespace LuaBytecode

/-! ## Jumps -/

/-- The operations that may jump. -/
def Opcode.jumps : List Opcode := [.jmp, .forPrep, .forLoop]

namespace Running

variable {host : Host} {r : Running} {i : Instruction} {op : Opcode}

/-- The instruction jumps in this state: always, or if its counter is not positive, or if its
counter is still positive when one is taken off. -/
def TakesJump (r : Running) (i : Instruction) : Opcode → Prop
  | .jmp => True
  | .forPrep => ∃ v, r.register? i.a.toNat = some v ∧ ¬ v.number?.any Number.isPositive
  | .forLoop => ∃ v, r.register? i.a.toNat = some v ∧ v.numberOrZero.pred.isPositive
  | _ => False

theorem execute_of_takesJump (h : r.TakesJump i op) :
    ∃ heap, i.execute op r.scope = Exec.jumpBy (Listing.reach i op - 1) ⟨r.scope.frame, heap⟩ := by
  unfold TakesJump at h
  split at h
  · refine ⟨r.machine.heap, ?_⟩
    rw [Listing.reach, Int.add_sub_cancel]
    rfl
  · obtain ⟨v, hv, hpositive⟩ := h
    refine ⟨r.machine.heap, ?_⟩
    have hreach : Listing.reach i .forPrep - 1 = i.bx + 1 := by
      rw [Listing.reach]
      omega
    have hexecute := Exec.forPrep_eq (s := r.scope) hv i.bx
    rw [if_neg hpositive] at hexecute
    rw [hreach]
    exact hexecute
  · obtain ⟨v, hv, hpositive⟩ := h
    obtain ⟨x, hx, rfl⟩ := Option.map_eq_some_iff.mp hv
    have hreach : Listing.reach i .forLoop - 1 = -i.bx := by
      rw [Listing.reach]
      omega
    have hpositive' : (r.scope.heap.cell x).numberOrZero.pred.isPositive = true := hpositive
    have hexecute := Exec.forLoop_eq (s := r.scope) hx i.bx
    rw [if_pos hpositive'] at hexecute
    rw [hreach]
    exact ⟨_, hexecute⟩
  · exact h.elim

/-- Where an instruction does not jump, control goes on behind it, unless there is no register for
its counter. -/
theorem execute_of_not_takesJump (hop : op ∈ Opcode.jumps) (h : ¬ r.TakesJump i op) :
    (∃ heap, i.execute op r.scope = .ok .proceed ⟨r.scope.frame, heap⟩) ∨
      ∃ size s, i.execute op r.scope = .error (.outOfRange .register i.a.toNat size) s := by
  simp only [Opcode.jumps, List.mem_cons, List.not_mem_nil, or_false] at hop
  rcases hop with rfl | rfl | rfl
  · exact absurd trivial h
  · cases hv : r.register? i.a.toNat with
    | none => exact .inr ⟨_, _, Exec.bind_error (Exec.reg_none hv)⟩
    | some v =>
        left
        have hpositive : v.number?.any Number.isPositive = true := by
          by_contra hnot
          exact h ⟨v, hv, hnot⟩
        have hexecute := Exec.forPrep_eq (s := r.scope) hv i.bx
        rw [if_pos hpositive] at hexecute
        exact ⟨r.machine.heap, hexecute⟩
  · cases hx : r.frame.registers[i.a.toNat]? with
    | none =>
        have hv : r.register? i.a.toNat = none := Option.map_eq_none_iff.mpr hx
        exact .inr ⟨_, _, Exec.bind_error (Exec.reg_none hv)⟩
    | some x =>
        left
        have hv : r.register? i.a.toNat = some (r.machine.heap.cell x) :=
          Option.map_eq_some_iff.mpr ⟨x, hx, rfl⟩
        have hpositive : ¬ (r.scope.heap.cell x).numberOrZero.pred.isPositive = true :=
          fun hpositive => h ⟨_, hv, hpositive⟩
        have hexecute := Exec.forLoop_eq (s := r.scope) hx i.bx
        rw [if_neg hpositive] at hexecute
        exact ⟨_, hexecute⟩

/-- The next step carries out the instruction at `pc`. -/
structure StandsAt (p : Prototype) (pc : Nat) (r : Running) : Prop where
  proto : r.frame.proto = p
  pc : r.frame.pc = pc
  budget : r.machine.tick.overBudget? = none

namespace StandsAt

variable {p : Prototype} {pc : Nat}

theorem dispatches (hr : r.StandsAt p pc) (hcode : p.code[pc]? = some i) : r.Dispatches i := by
  refine ⟨?_, hr.budget⟩
  rw [hr.proto, hr.pc, hcode]

/-- A jump that is taken. -/
theorem step_taken (host : Host) (hr : r.StandsAt p pc) (hcode : p.code[pc]? = some i)
    (hop : i.opcode? = some op) (htakes : r.TakesJump i op) {next : Nat}
    (hnext : pc + Listing.reach i op = next) :
    ∃ m, r.step host = .running ⟨m, { r.frame with pc := next }, r.callers⟩ := by
  obtain ⟨heap, hexecute⟩ := execute_of_takesJump htakes
  have hplace : ((r.frame.pc + 1 : Nat) : Int) + (Listing.reach i op - 1) = next := by
    rw [hr.pc]
    omega
  have hok := hexecute.trans (Exec.bind_ok (Exec.jump_ok hplace))
  exact ⟨_, (hr.dispatches hcode).step_ok hop hok⟩

/-- A jump to a place before the beginning of the code. -/
theorem step_astray (host : Host) (hr : r.StandsAt p pc) (hcode : p.code[pc]? = some i)
    (hop : i.opcode? = some op) (htakes : r.TakesJump i op) (hbefore : pc + Listing.reach i op < 0) :
    ∃ m, r.step host = .finished m
      (.error (.outOfRange .jumpTarget (pc + Listing.reach i op) p.code.size)) := by
  obtain ⟨heap, hexecute⟩ := execute_of_takesJump htakes
  have hplace : ((r.frame.pc + 1 : Nat) : Int) + (Listing.reach i op - 1)
      = pc + Listing.reach i op := by
    rw [hr.pc]
    omega
  have herror : Exec.jump (Listing.reach i op - 1) ⟨r.scope.frame, heap⟩
      = .error (.outOfRange .jumpTarget (pc + Listing.reach i op) p.code.size)
          ⟨r.scope.frame, heap⟩ := by
    rw [← hplace] at hbefore ⊢
    rw [← hr.proto]
    exact Exec.jump_error hbefore
  have hfails := hexecute.trans (Exec.bind_error herror)
  exact ⟨_, (hr.dispatches hcode).step_error hop hfails⟩

/-- A jump that is not taken. -/
theorem step_passed (host : Host) (hr : r.StandsAt p pc) (hcode : p.code[pc]? = some i)
    (hop : i.opcode? = some op) (hjump : op ∈ Opcode.jumps) (hnot : ¬ r.TakesJump i op) :
    (∃ m, r.step host = .running ⟨m, { r.frame with pc := pc + 1 }, r.callers⟩) ∨
      ∃ m size, r.step host = .finished m (.error (.outOfRange .register i.a.toNat size)) := by
  rcases execute_of_not_takesJump hjump hnot with ⟨heap, hok⟩ | ⟨size, s, herror⟩
  · left
    rw [← hr.pc]
    exact ⟨_, (hr.dispatches hcode).step_ok hop hok⟩
  · right
    exact ⟨_, size, (hr.dispatches hcode).step_error hop herror⟩

end StandsAt

end Running

namespace Listing

variable {p : Prototype} {pc : Nat} {i : Instruction} {op : Opcode} {target : Int64}

/-- The target, counted from one, is where a run goes on when it takes the jump, and the jump fails
exactly if it is taken and the target is below one. Where the jump is not taken, the run goes on
with the next instruction. -/
structure TellsTarget (p : Prototype) (pc : Nat) (i : Instruction) (op : Opcode)
    (target : Int64) : Prop where
  taken : ∀ (host : Host) (r : Running), r.StandsAt p pc → r.TakesJump i op → 1 ≤ target.toInt →
    ∃ r', r.step host = .running r' ∧ target.toInt = r'.frame.pc + 1 ∧
      r'.frame = { r.frame with pc := r'.frame.pc } ∧ r'.callers = r.callers
  passed : ∀ (host : Host) (r r' : Running), r.StandsAt p pc → ¬ r.TakesJump i op →
    r.step host = .running r' → r'.frame.pc = pc + 1
  fault_iff : ∀ (host : Host) (r : Running), r.StandsAt p pc → ∀ index size,
    (∃ m, r.step host = .finished m (.error (.outOfRange .jumpTarget index size))) ↔
      r.TakesJump i op ∧ target.toInt < 1 ∧ index = target.toInt - 1 ∧ size = p.code.size

theorem tellsTarget (hcode : p.code[pc]? = some i) (hop : i.opcode? = some op)
    (hjump : op ∈ Opcode.jumps) (htarget : target.toInt = pc + reach i op + 1) :
    TellsTarget p pc i op target where
  taken host r hr htakes hpositive := by
    obtain ⟨next, hnext⟩ := Int.eq_ofNat_of_zero_le (a := pc + reach i op) (by omega)
    obtain ⟨m, hstep⟩ := hr.step_taken host hcode hop htakes hnext
    refine ⟨_, hstep, ?_, rfl, rfl⟩
    rw [htarget, hnext]
  passed host r r' hr hnot hstep := by
    rcases hr.step_passed host hcode hop hjump hnot with ⟨m, hpassed⟩ | ⟨m, size, hfault⟩
    · rw [hstep] at hpassed
      cases hpassed
      rfl
    · rw [hstep] at hfault
      cases hfault
  fault_iff host r hr index size := by
    constructor
    · rintro ⟨m, hfault⟩
      by_cases htakes : r.TakesJump i op
      · by_cases hbefore : pc + reach i op < 0
        · obtain ⟨m', hastray⟩ := hr.step_astray host hcode hop htakes hbefore
          rw [hfault] at hastray
          cases hastray
          exact ⟨htakes, by omega, by omega, rfl⟩
        · obtain ⟨next, hnext⟩ := Int.eq_ofNat_of_zero_le (Int.not_lt.mp hbefore)
          obtain ⟨m', hstep⟩ := hr.step_taken host hcode hop htakes hnext
          rw [hfault] at hstep
          cases hstep
      · rcases hr.step_passed host hcode hop hjump htakes with ⟨m', hstep⟩ | ⟨m', size', hother⟩
        · rw [hfault] at hstep
          cases hstep
        · rw [hfault] at hother
          cases hother
    · rintro ⟨htakes, hlow, rfl, rfl⟩
      have hindex : target.toInt - 1 = pc + reach i op := by omega
      rw [hindex]
      exact hr.step_astray host hcode hop htakes (by omega)

end Listing

/-! ## Texts of constants -/

namespace Decimal

/-- The characters that numbers are written with. -/
def IsNumeral (c : Char) : Prop := c.isDigit = true ∨ c ∈ ['.', 'e', '-', '+']

theorem isNumeral_digits (n : Nat) : ∀ c ∈ digits n, IsNumeral c :=
  fun _ hc => .inl (Nat.isDigit_of_mem_toDigits (by decide) (by decide) hc)

namespace Layout

variable (l : Layout)

theorem isNumeral_positional {ds : List Char} (hds : ∀ c ∈ ds, IsNumeral c) (whole : Int) :
    ∀ c ∈ l.positional ds whole, IsNumeral c := by
  have hzero : IsNumeral '0' := .inl (by decide)
  have hpoint : IsNumeral '.' := .inr (by decide)
  have hzeros (count : Nat) : ∀ c ∈ List.replicate count '0', IsNumeral c := by
    intro c hc
    rw [List.eq_of_mem_replicate hc]
    exact hzero
  unfold positional
  split
  · rw [List.forall_mem_cons, List.forall_mem_cons, List.forall_mem_append]
    exact ⟨hzero, hpoint, hzeros _, hds⟩
  · split
    · rw [List.forall_mem_append, List.forall_mem_append]
      refine ⟨⟨hds, hzeros _⟩, ?_⟩
      split
      · simp [hzero, hpoint]
      · exact List.forall_mem_nil _
    · rw [List.forall_mem_append, List.forall_mem_cons]
      exact ⟨fun c hc => hds c (List.mem_of_mem_take hc), hpoint,
        fun c hc => hds c (List.mem_of_mem_drop hc)⟩

theorem isNumeral_scientific {ds : List Char} (hds : ∀ c ∈ ds, IsNumeral c) (leading : Int) :
    ∀ c ∈ l.scientific ds leading, IsNumeral c := by
  have hpoint : IsNumeral '.' := .inr (by decide)
  have hmark : IsNumeral 'e' := .inr (by decide)
  have hminus : IsNumeral '-' := .inr (by decide)
  have hplus : IsNumeral '+' := .inr (by decide)
  have hexponent := isNumeral_digits leading.natAbs
  unfold scientific
  dsimp only
  rw [List.forall_mem_append, List.forall_mem_cons, List.forall_mem_append]
  refine ⟨?_, hmark, ?_, hexponent⟩
  · split
    · exact hds
    · exact hds
    · rw [List.forall_mem_cons] at hds ⊢
      rw [List.forall_mem_cons]
      exact ⟨hds.1, hpoint, hds.2⟩
  · split_ifs <;> simp [hminus, hplus]

theorem isNumeral_decimal (d : Decimal) : ∀ c ∈ l.decimal d, IsNumeral c := by
  unfold decimal
  dsimp only
  split
  · exact l.isNumeral_positional (isNumeral_digits _) _
  · exact l.isNumeral_scientific (isNumeral_digits _) _

end Layout

end Decimal

namespace Constant

theorem ne_question_of_isNumeral {t : String} (ht : ∀ c ∈ t.toList, Decimal.IsNumeral c) :
    t ≠ "?" := by
  rintro rfl
  rcases ht '?' (by decide) with hdigit | hmem
  · exact absurd hdigit (by decide)
  · exact absurd hmem (by decide)

theorem isNumeral_sign (negative : Bool) :
    ∀ c ∈ (if negative then "-" else "").toList, Decimal.IsNumeral c := by
  cases negative with
  | false => exact List.forall_mem_nil _
  | true => exact List.forall_mem_singleton.mpr (.inr (by decide))

theorem layout_text_ne_question (f : Binary64) : layout.text f ≠ "?" := by
  unfold Decimal.Layout.text
  dsimp only
  split
  · decide
  · split
    · cases f.isNegative <;> decide
    · split
      · cases f.isNegative <;> decide
      · apply ne_question_of_isNumeral
        rw [String.toList_append, String.toList_ofList, List.forall_mem_append]
        exact ⟨isNumeral_sign _, layout.isNumeral_decimal _⟩

/-- No constant is written as a question mark. -/
theorem text_ne_question (k : Constant) : k.text ≠ "?" := by
  cases k with
  | nil => decide
  | bool b => cases b <;> decide
  | int n =>
      apply ne_question_of_isNumeral
      rw [text, Json.toList_toString_int, List.forall_mem_append]
      refine ⟨?_, Decimal.isNumeral_digits _⟩
      split
      · exact isNumeral_sign true
      · exact isNumeral_sign false
  | float f => exact layout_text_ne_question f
  | str t =>
      intro h
      have hchars := congrArg String.toList h
      rw [text, Text.quoted, String.toList_ofList] at hchars
      injection hchars with hhead
      exact absurd hhead (by decide)

end Constant

namespace Listing

variable {p : Prototype} {pc : Nat} {i : Instruction} {op : Opcode} {n : Nat}

theorem constantText_of_some {k : Constant} (h : p.constants[n]? = some k) :
    constantText p n = k.text := by
  rw [constantText, h]

theorem constantText_eq_question_iff : constantText p n = "?" ↔ p.constants[n]? = none := by
  cases h : p.constants[n]? with
  | some k =>
      rw [constantText_of_some h]
      exact iff_of_false k.text_ne_question nofun
  | none =>
      rw [constantText, h]
      exact iff_of_true rfl rfl

/-! ## Constants and upvalues -/

/-- The constants that the instruction stores, besides the one it has as a key. -/
def storedConstants (i : Instruction) : Opcode → Set Nat
  | .setTabUp | .setField => { n | i.k = true ∧ n = i.c.toNat }
  | _ => ∅

/-- The listing gives the text of the constant that the instruction looks up, and a question mark
exactly if there is none to be found. -/
structure TellsConstant (p : Prototype) (i : Instruction) (op : Opcode) (n : Nat) : Prop where
  shown : ∀ k, p.constants[n]? = some k → constantText p n = k.text ∧
    ∀ s : Scope, s.frame.proto = p → Exec.constant n s = .ok (.ofConstant k) s
  missing_iff : ∀ s : Scope, s.frame.proto = p → (constantText p n = "?" ↔
    Exec.constant n s = .error (.outOfRange .constant n p.constants.size) s)
  consults : (i.execute op).Consults .constants n (storedConstants i op)

/-- The listing gives the name of the upvalue that the instruction looks up. -/
structure TellsUpvalue (p : Prototype) (i : Instruction) (op : Opcode) (u : Nat) : Prop where
  shown : ∀ name, p.debug.upvalueNames[u]? = some name → upvalueText p u = name
  consults : (i.execute op).Consults .upvalues u ∅

theorem tellsConstant (h : (i.execute op).Consults .constants n (storedConstants i op)) :
    TellsConstant p i op n where
  shown k hk := by
    refine ⟨constantText_of_some hk, fun s hs => Exec.constant_some ?_⟩
    rw [hs, hk]
  missing_iff s hs := by
    rw [constantText_eq_question_iff, ← hs]
    cases hn : s.frame.proto.constants[n]? with
    | some k =>
        rw [Exec.constant_some hn]
        exact iff_of_false nofun nofun
    | none =>
        rw [Exec.constant_none hn]
        exact iff_of_true rfl rfl
  consults := h

theorem tellsUpvalue {u : Nat} (h : (i.execute op).Consults .upvalues u ∅) :
    TellsUpvalue p i op u where
  shown name hname := by
    rw [upvalueText, DebugInfo.upvalueName?, hname, Option.getD_some]
  consults := h

theorem dependsOn_stored {others : Set Nat} (h : i.k = true → i.c.toNat ∈ others) :
    Exec.DependsOn .constants (insert n others) (Exec.registerOrConstant i) :=
  (Exec.dependsOn_ordinary _).registerOrConstant fun hk =>
    Exec.dependsOn_constant (Set.mem_insert_of_mem n (h hk))

/-- The operations with a constant as an operand, apart from those that have an upvalue too. -/
def constantForms : List Opcode :=
  [.loadK, .getField, .setField, .eqK,
    .addK, .subK, .mulK, .modK, .powK, .divK, .idivK, .bandK, .borK, .bxorK]

theorem tells_constant (p : Prototype) (pc : Nat)
    (hop : op ∈ constantForms ∨ op = .self ∧ i.k = true) :
    ∃ n, annotation? p pc i op = some (.constant n) ∧ TellsConstant p i op n := by
  rcases hop with hop | ⟨rfl, hk⟩
  · simp only [constantForms, List.mem_cons, List.not_mem_nil, or_false] at hop
    rcases hop with rfl | rfl | rfl | rfl | harith
    · exact ⟨_, rfl, tellsConstant (Exec.consults_loadK _ _)⟩
    · exact ⟨_, rfl, tellsConstant (Exec.consults_getField _ _ _)⟩
    · have hstored : Exec.DependsOn .constants (insert i.b.toNat (storedConstants i .setField))
          (Exec.registerOrConstant i) :=
        dependsOn_stored fun hk => ⟨hk, rfl⟩
      exact ⟨_, rfl, tellsConstant (Exec.consults_setField _ _ hstored)⟩
    · exact ⟨_, rfl, tellsConstant (Exec.consults_eqK _ _ _ _)⟩
    · rcases harith with rfl | rfl | rfl | rfl | rfl | rfl | rfl | rfl | rfl | rfl <;>
        exact ⟨_, rfl, tellsConstant (Exec.consults_arithmetic rfl _ _ _)⟩
  · have hkey : i.execute .self = Exec.self i.a.toNat i.b.toNat (Exec.constant i.c.toNat) :=
      congrArg (Exec.self _ _) (if_pos hk)
    refine ⟨i.c.toNat, if_pos hk, tellsConstant ?_⟩
    rw [hkey]
    exact Exec.consults_self _ _ _

theorem tells_upvalueField (p : Prototype) (pc : Nat) (hop : op = .getTabUp ∨ op = .setTabUp) :
    ∃ u n, annotation? p pc i op = some (.upvalueField u n) ∧ TellsUpvalue p i op u ∧
      TellsConstant p i op n := by
  rcases hop with rfl | rfl
  · exact ⟨_, _, rfl, tellsUpvalue (Exec.consults_getTabUp _ _ _),
      tellsConstant (Exec.consults_getTabUp_key _ _ _)⟩
  · have hstored : Exec.DependsOn .constants (insert i.b.toNat (storedConstants i .setTabUp))
        (Exec.registerOrConstant i) :=
      dependsOn_stored fun hk => ⟨hk, rfl⟩
    exact ⟨_, _, rfl, tellsUpvalue (Exec.consults_setTabUp _ _ _),
      tellsConstant (Exec.consults_setTabUp_key _ _ hstored)⟩

theorem execute_getUpvalue {s : Scope} {x y : CellRef} (hx : s.frame.upvalues[i.b.toNat]? = some x)
    (hy : s.frame.registers[i.a.toNat]? = some y) :
    i.execute .getUpvalue s = .ok .proceed ⟨s.frame, s.heap.setCell y (s.heap.cell x)⟩ := by
  have hread : Exec.upvalue i.b.toNat s = .ok (s.heap.cell x) s :=
    Exec.bind_ok (Exec.upvalueCell_some hx)
  exact (Exec.bind_ok hread).trans (Exec.bind_ok (Exec.setReg_ok hy _))

theorem execute_setUpvalue {s : Scope} {x : CellRef} {v : Value}
    (hx : s.frame.upvalues[i.b.toNat]? = some x)
    (hv : s.frame.register? s.heap i.a.toNat = some v) :
    i.execute .setUpvalue s = .ok .proceed ⟨s.frame, s.heap.setCell x v⟩ :=
  (Exec.bind_ok (Exec.reg_some hv)).trans (Exec.bind_ok (Exec.upvalueCell_some hx))

/-- The annotation stands at the end of the line. -/
theorem instructionText_of_annotation {a : Annotation} (hop : i.opcode? = some op)
    (ha : annotation? p pc i op = some a) :
    ∃ front, instructionText p pc i = front ++ "\t; " ++ annotationText p a := by
  refine ⟨padRight 12 op.mnemonic ++ operandText i op.layout, ?_⟩
  rw [instructionText, hop]
  dsimp only
  rw [ha, String.append_assoc, String.append_assoc, String.append_assoc]

end Listing

/-- A function with a jump to a place before its code, a constant that is not there, and instructions
that refer to constants and upvalues in all ways. -/
def Prototype.signpost : Prototype where
  code := #[.ofSJ .jmp (-3), .ofABx .forPrep 0 4, .ofABx .loadK 0 7, .ofABC .self 0 1 0 true,
    .ofABC .setTabUp 0 0 1 true, .ofABC .getUpvalue 0 0 0 false, .ofABC .setUpvalue 0 0 0 false]
  constants := #[.str "x", .int 7]
  upvalues := [⟨true, 0, 0⟩]
  debug := { upvalueNames := ["_ENV"] }

namespace Listing

end Listing

end LuaBytecode
