import Mathlib
import LuaBytecode.Json.Printer
import LuaBytecode.Json.Reader
import LuaBytecode.Proofs.ShortestDecimal

/-! # Numbers in JSON text

A number that has been written is read as a number again. The text of a double is a
decimal from around it, in one of four shapes. Each shape is a numeral whose exact size is
that of the decimal, and a numeral of that size has a value unless it comes close to the
largest double; the doubles so close to the bound that rounding could pass it are three.
-/

namespace LuaBytecode.Json

open Binary64

/-! ## The size of a numeral -/

namespace Numeral

/-- Append digits to a number. -/
def total (n : Nat) (ds : List Nat) : Nat := ds.foldl (fun n d => n * 10 + d) n

theorem mul_pow_le_total (n : Nat) (ds : List Nat) : n * 10 ^ ds.length ≤ total n ds := by
  induction ds generalizing n with
  | nil => exact (Nat.mul_one n).le
  | cons d rest ih =>
      calc n * 10 ^ (rest.length + 1) = n * 10 * 10 ^ rest.length := by ring
        _ ≤ (n * 10 + d) * 10 ^ rest.length := by gcongr; exact Nat.le_add_right _ _
        _ ≤ total (n * 10 + d) rest := ih _

theorem gather_of_le {limit n : Nat} {ds : List Nat} (hle : total n ds ≤ limit) :
    gather limit n ds = (total n ds, 0) := by
  induction ds generalizing n with
  | nil => rfl
  | cons d rest ih =>
      have hfits : n * 10 + d ≤ limit := by
        refine le_trans ?_ ((mul_pow_le_total (n * 10 + d) rest).trans hle)
        exact Nat.le_mul_of_pos_right _ (Nat.pow_pos (by decide))
      rw [gather, if_pos hfits]
      exact ih hle

theorem eq_total_of_gather {limit n : Nat} {ds : List Nat} (hall : (gather limit n ds).2 = 0) :
    (gather limit n ds).1 = total n ds := by
  induction ds generalizing n with
  | nil => rfl
  | cons d rest ih =>
      rw [gather] at *
      split_ifs at * with hfits
      exact ih hall

/-- What has been gathered, with a zero for each digit left over, is not more than the digits
say. -/
theorem gather_le {limit n : Nat} (ds : List Nat) (hn : n ≤ limit) :
    (gather limit n ds).1 ≤ limit ∧ (gather limit n ds).2 ≤ ds.length ∧
      (gather limit n ds).1 * 10 ^ (gather limit n ds).2 ≤ total n ds := by
  induction ds generalizing n with
  | nil => exact ⟨hn, le_rfl, (Nat.mul_one n).le⟩
  | cons d rest ih =>
      rw [gather]
      split_ifs with hfits
      · obtain ⟨hlimit, hleft, hle⟩ := ih hfits
        exact ⟨hlimit, Nat.le_succ_of_le hleft, hle⟩
      · exact ⟨hn, le_rfl, mul_pow_le_total n (d :: rest)⟩

/-- All digits of a numeral as one integer. -/
def coefficient (n : Numeral) : Nat := total (total 0 n.whole) (n.fraction.getD [])

/-- The exponent as it is written. -/
def writtenExponent (n : Numeral) : Int :=
  match n.exponent with
  | none => 0
  | some (down, ds) => if down then -(total 0 ds : Int) else total 0 ds

/-- The power of ten that belongs to the last digit. -/
def power (n : Numeral) : Int := n.writtenExponent - (n.fraction.getD []).length

/-- The exact size of a numeral. -/
def size (n : Numeral) : ℚ := n.coefficient * 10 ^ n.power

theorem exists_ofParts_of_size (negative : Bool) {c significand unread : Nat} {power exponent : Int}
    (hsignificand : significand ≤ significandLimit) (hle : significand * 10 ^ unread ≤ c)
    (hsmall : 2 * (c * 10 ^ power : ℚ) ≤ safeBound)
    (hexponent : 0 ≤ exponent → exponent ≤ power + unread) :
    ∃ j, ofParts negative significand exponent = some j := by
  refine exists_ofParts negative hsignificand fun hnonneg => ?_
  generalize safeBound = bound at *
  have hten : (10 : ℚ) ≠ 0 := by norm_num
  have hscaled : (significand * 10 ^ exponent.toNat : ℚ) ≤ c * 10 ^ power := by
    calc (significand * 10 ^ exponent.toNat : ℚ) = significand * 10 ^ exponent := by
          rw [← zpow_natCast, Int.toNat_of_nonneg hnonneg]
      _ ≤ significand * 10 ^ (power + unread) := by
          gcongr
          · norm_num
          · exact hexponent hnonneg
      _ = significand * 10 ^ unread * 10 ^ power := by
          rw [zpow_add₀ hten, zpow_natCast]
          ring
      _ ≤ c * 10 ^ power := by
          gcongr
          exact_mod_cast hle
  have hbound : (2 * (significand * 10 ^ exponent.toNat) : ℚ) ≤ bound := by linarith
  exact_mod_cast hbound

theorem clampExponent_le {e : Int} (hnonneg : 0 ≤ clampExponent e) : clampExponent e ≤ e := by
  have hmin : Int32.minValue.toInt < 0 := by decide
  rw [clampExponent] at *
  omega

/-- A whole number of up to 64 bits has a value. -/
theorem exists_value_of_whole (negative : Bool) {whole : List Nat}
    (hwhole : total 0 whole ≤ significandLimit) :
    ∃ j, value? ⟨negative, whole, none, none⟩ = some j := by
  simp only [value?, gather_of_le hwhole, lt_irrefl, if_false]
  split_ifs <;> exact ⟨_, rfl⟩

/-- A numeral whose size is a little below that of the largest double has a value. -/
theorem exists_value {n : Numeral} (hwhole : total 0 n.whole ≤ significandLimit)
    (hexponent : ∀ ds, n.exponent = some (false, ds) → total 0 ds ≤ exponentLimit)
    (hsmall : 2 * n.size ≤ safeBound) : ∃ j, n.value? = some j := by
  obtain ⟨negative, whole, fraction, exponent⟩ := n
  obtain ⟨hsignificand, hunread, hle⟩ := gather_le (fraction.getD []) hwhole
  rw [size, coefficient, power] at hsmall
  cases exponent with
  | none =>
      cases fraction with
      | none => exact exists_value_of_whole negative hwhole
      | some ds =>
          simp only [value?, gather_of_le hwhole]
          refine exists_ofParts_of_size negative hsignificand hle hsmall fun _ => ?_
          simp only [writtenExponent, Option.getD_some] at *
          omega
  | some e =>
      obtain ⟨down, es⟩ := e
      simp only [value?, gather_of_le hwhole]
      by_cases hall : (gather exponentLimit 0 es).2 = 0
      · rw [hall, if_neg (lt_irrefl 0), eq_total_of_gather hall]
        refine exists_ofParts_of_size negative hsignificand hle hsmall fun hnonneg => ?_
        have := clampExponent_le hnonneg
        simp only [writtenExponent]
        split_ifs at * <;> omega
      · have hdown : down = true := by
          by_contra hup
          rw [Bool.not_eq_true] at hup
          subst hup
          exact hall (congrArg Prod.snd (gather_of_le (hexponent es rfl)))
        subst hdown
        rw [if_pos (Nat.pos_of_ne_zero hall), if_neg (by simp)]
        exact ⟨_, rfl⟩

end Numeral

/-! ## Numerals as text -/

/-- The digits of a number as they are written. -/
structure NumberText where
  whole : List Char
  fraction : Option (List Char)
  /-- Whether the exponent is negative, and its digits. -/
  exponent : Option (Bool × List Char)

/-- At least one digit and nothing else. -/
def AreDigits (cs : List Char) : Prop := cs ≠ [] ∧ ∀ c ∈ cs, isDigit c = true

def digitValues (cs : List Char) : List Nat := cs.map fun c => c.toNat - '0'.toNat

namespace NumberText

def fractionChars : Option (List Char) → List Char
  | none => []
  | some ds => '.' :: ds

def exponentChars : Option (Bool × List Char) → List Char
  | none => []
  | some (down, ds) => 'e' :: (if down then '-' else '+') :: ds

def chars (t : NumberText) : List Char :=
  t.whole ++ (fractionChars t.fraction ++ exponentChars t.exponent)

def numeral (negative : Bool) (t : NumberText) : Numeral where
  negative
  whole := digitValues t.whole
  fraction := t.fraction.map digitValues
  exponent := t.exponent.map fun e => (e.1, digitValues e.2)

structure WellFormed (t : NumberText) : Prop where
  whole : AreDigits t.whole
  zeroAlone : t.whole.head? = some '0' → t.whole.length = 1
  fraction : ∀ ds, t.fraction = some ds → AreDigits ds
  exponent : ∀ down ds, t.exponent = some (down, ds) → AreDigits ds

end NumberText

/-- Whether a number could go on with this character. -/
def continuesNumber (c : Char) : Bool := isDigit c || c == '.' || c == 'e' || c == 'E'

/-- A number that has been read up to here ends here. -/
def NumberEnds (rest : List Char) : Prop := ∀ c ∈ rest.head?, continuesNumber c = false

section

variable {cs rest : List Char}

theorem NumberEnds.of_mem_head (hrest : NumberEnds rest) {c : Char} (hc : c ∈ rest.head?) :
    isDigit c = false ∧ c ≠ '.' := by
  have hends := hrest c hc
  simp only [continuesNumber, Bool.or_eq_false_iff, beq_eq_false_iff_ne] at hends
  exact ⟨hends.1.1.1, hends.1.1.2⟩

theorem readDigits_append (hcs : ∀ c ∈ cs, isDigit c = true)
    (hrest : ∀ c ∈ rest.head?, isDigit c = false) :
    readDigits (cs ++ rest) = (digitValues cs, rest) := by
  have hstop : rest.takeWhile isDigit = [] ∧ rest.dropWhile isDigit = rest := by
    cases rest with
    | nil => exact ⟨rfl, rfl⟩
    | cons c rest => simp [hrest c rfl]
  rw [readDigits, List.takeWhile_append_of_pos hcs, List.dropWhile_append_of_pos hcs, hstop.1,
    hstop.2, List.append_nil]
  rfl

theorem isDigit_iff {c : Char} : isDigit c = true ↔ 48 ≤ c.toNat ∧ c.toNat ≤ 57 := by
  rw [isDigit, Bool.and_eq_true, decide_eq_true_iff, decide_eq_true_iff, Char.le_def, Char.le_def,
    UInt32.le_iff_toNat_le, UInt32.le_iff_toNat_le]
  rfl

theorem readWhole_append (hcs : AreDigits cs) (hzero : cs.head? = some '0' → cs.length = 1)
    (hrest : ∀ c ∈ rest.head?, isDigit c = false) :
    readWhole (cs ++ rest) = some (digitValues cs, rest) := by
  rw [readWhole, readDigits_append hcs.2 hrest]
  split
  · next hnil =>
      exact absurd (List.map_eq_nil_iff.mp (congrArg Prod.fst hnil)) hcs.1
  · next d ds rest' hzeros =>
      -- more than one digit, the first of them a zero
      cases cs with
      | nil => cases congrArg Prod.fst hzeros
      | cons c tail =>
          obtain ⟨hvalue, htail⟩ := List.cons.inj (congrArg Prod.fst hzeros)
          have hdigit := isDigit_iff.mp (hcs.2 c List.mem_cons_self)
          have hc : c = '0' := by
            have hcode : c.toNat = '0'.toNat := by
              have hzero : '0'.toNat = 48 := rfl
              have hvalue : c.toNat - '0'.toNat = 0 := hvalue
              omega
            exact Char.ext (UInt32.toNat_inj.mp hcode)
          have hsingle := hzero (congrArg some hc)
          have hlength := congrArg List.length htail
          simp only [List.length_map, List.length_cons] at hsingle hlength
          omega
  · next heq =>
      cases heq
      rfl

theorem readFraction_append {fraction : Option (List Char)}
    (hfraction : ∀ ds, fraction = some ds → AreDigits ds)
    (hrest : ∀ c ∈ rest.head?, isDigit c = false ∧ c ≠ '.') :
    readFraction (NumberText.fractionChars fraction ++ rest)
      = some (fraction.map digitValues, rest) := by
  cases fraction with
  | none =>
      rw [NumberText.fractionChars, List.nil_append, readFraction]
      · rfl
      · rintro cs rfl
        exact (hrest '.' rfl).2 rfl
  | some ds =>
      obtain ⟨hnonempty, hdigits⟩ := hfraction ds rfl
      rw [NumberText.fractionChars, List.cons_append, readFraction,
        readDigits_append hdigits fun c hc => (hrest c hc).1]
      split
      · next hnil =>
          exact absurd (List.map_eq_nil_iff.mp (congrArg Prod.fst hnil)) hnonempty
      · next heq =>
          cases heq
          rfl

theorem readExponentDigits_append (down : Bool) (hcs : AreDigits cs)
    (hrest : ∀ c ∈ rest.head?, isDigit c = false) :
    readExponentDigits down (cs ++ rest) = some (some (down, digitValues cs), rest) := by
  rw [readExponentDigits, readDigits_append hcs.2 hrest]
  split
  · next hnil =>
      exact absurd (List.map_eq_nil_iff.mp (congrArg Prod.fst hnil)) hcs.1
  · next heq =>
      cases heq
      rfl

theorem readExponent_append {exponent : Option (Bool × List Char)}
    (hexponent : ∀ down ds, exponent = some (down, ds) → AreDigits ds) (hrest : NumberEnds rest) :
    readExponent (NumberText.exponentChars exponent ++ rest)
      = some (exponent.map fun e => (e.1, digitValues e.2), rest) := by
  cases exponent with
  | none =>
      rw [NumberText.exponentChars, List.nil_append, readExponent]
      · rfl
      · rintro cs rfl
        cases hrest 'e' rfl
      · rintro cs rfl
        cases hrest 'E' rfl
  | some e =>
      obtain ⟨down, ds⟩ := e
      have hdigits := readExponentDigits_append down (hexponent down ds rfl)
        fun c hc => (hrest.of_mem_head hc).1
      cases down with
      | true => exact hdigits
      | false => exact hdigits

end

/-- The number ends where its text does. -/
theorem readNumber_append {t : NumberText} (ht : t.WellFormed) (negative : Bool)
    {rest : List Char} (hrest : NumberEnds rest) :
    readNumber negative (t.chars ++ rest) = (t.numeral negative).value?.map (·, rest) := by
  have hexponent : ∀ c ∈ (NumberText.exponentChars t.exponent ++ rest).head?,
      isDigit c = false ∧ c ≠ '.' := by
    intro c hc
    cases he : t.exponent with
    | none =>
        rw [he] at hc
        exact hrest.of_mem_head hc
    | some e =>
        rw [he] at hc
        cases hc
        decide
  have hfraction : ∀ c ∈ (NumberText.fractionChars t.fraction ++
      (NumberText.exponentChars t.exponent ++ rest)).head?, isDigit c = false := by
    intro c hc
    cases hf : t.fraction with
    | none =>
        rw [hf] at hc
        exact (hexponent c hc).1
    | some ds =>
        rw [hf] at hc
        cases hc
        decide
  rw [readNumber, NumberText.chars, List.append_assoc, List.append_assoc,
    readWhole_append ht.whole ht.zeroAlone hfraction]
  simp only [Option.bind_eq_bind, Option.bind_some]
  rw [readFraction_append ht.fraction hexponent]
  simp only [Option.bind_some]
  rw [readExponent_append ht.exponent hrest]
  exact (Option.map_eq_bind ..).symm

/-! ## Decimals as text -/

theorem total_digitValues (n : Nat) (cs : List Char) :
    Numeral.total n (digitValues cs) = Nat.ofDigitChars 10 cs n := by
  induction cs generalizing n with
  | nil => rfl
  | cons c rest ih =>
      rw [Nat.ofDigitChars_cons, Nat.mul_comm, ← ih]
      rfl

theorem total_digits (n : Nat) : Numeral.total 0 (digitValues (Decimal.digits n)) = n := by
  rw [total_digitValues]
  exact Nat.ofDigitChars_ten_toDigits

theorem ofDigitChars_lt {cs : List Char} (hcs : ∀ c ∈ cs, isDigit c = true) (n : Nat) :
    Nat.ofDigitChars 10 cs n < (n + 1) * 10 ^ cs.length := by
  induction cs generalizing n with
  | nil => simp
  | cons c rest ih =>
      obtain ⟨hdigit, hrest⟩ := List.forall_mem_cons.mp hcs
      have hc : c.toNat - '0'.toNat ≤ 9 := Nat.sub_le_of_le_add (isDigit_iff.mp hdigit).2
      rw [Nat.ofDigitChars_cons]
      calc Nat.ofDigitChars 10 rest (10 * n + (c.toNat - '0'.toNat))
          < (10 * n + (c.toNat - '0'.toNat) + 1) * 10 ^ rest.length := ih hrest _
        _ ≤ (10 * n + 9 + 1) * 10 ^ rest.length := by gcongr
        _ = (n + 1) * 10 ^ (rest.length + 1) := by ring

theorem areDigits_digits (n : Nat) : AreDigits (Decimal.digits n) := by
  refine ⟨Nat.toDigits_ne_nil, fun c hc => ?_⟩
  have hdigit := Nat.isDigit_of_mem_toDigits (by decide) (by decide) hc
  rw [isDigit_iff]
  simpa [Char.isDigit, UInt32.le_iff_toNat_le] using hdigit

theorem head_digits {n : Nat} (hn : n ≠ 0) : (Decimal.digits n).head? ≠ some '0' := by
  induction n using Nat.strongRecOn with
  | ind n ih =>
      by_cases hsmall : n < 10
      · have hdigits : ∀ k < 10, k ≠ 0 → [Nat.digitChar k].head? ≠ some '0' := by decide
        rw [Decimal.digits, Nat.toDigits_of_lt_base hsmall]
        exact hdigits n hsmall hn
      · rw [Decimal.digits, Nat.toDigits_of_base_le (by decide) (Nat.not_lt.mp hsmall),
          List.head?_append_of_ne_nil _ Nat.toDigits_ne_nil]
        exact ih (n / 10) (by omega) (by omega)

theorem pow_le_of_length_digits {n : Nat} (hn : n ≠ 0) :
    10 ^ ((Decimal.digits n).length - 1) ≤ n := by
  by_contra hlt
  by_cases hsingle : (Decimal.digits n).length - 1 = 0
  · rw [hsingle] at hlt
    omega
  · have hshort := (Nat.length_toDigits_le_iff (b := 10) (by decide)
      (Nat.pos_of_ne_zero hsingle)).mpr (Nat.not_le.mp hlt)
    rw [Decimal.digits] at *
    omega

namespace NumberText

/-- Digits with a point after `whole` of them. -/
def positional (ds : List Char) (whole : Int) : NumberText :=
  if whole ≤ 0 then
    ⟨['0'], some (List.replicate (-whole).toNat '0' ++ ds), none⟩
  else if ds.length ≤ whole.toNat then
    ⟨ds ++ List.replicate (whole.toNat - ds.length) '0', some ['0'], none⟩
  else ⟨ds.take whole.toNat, some (ds.drop whole.toNat), none⟩

/-- One digit, the others behind a point, and an exponent. -/
def scientific (ds : List Char) (leading : Int) : NumberText where
  whole := ds.take 1
  fraction := if ds.length ≤ 1 then none else some (ds.drop 1)
  exponent := some (decide (leading < 0), Decimal.digits leading.natAbs)

/-- The exponent of the first digit of a decimal. -/
def leading (d : Decimal) : Int := d.scale + (Decimal.digits d.coefficient).length - 1

def ofDecimal (d : Decimal) : NumberText :=
  if layout.isPlain (leading d) then positional (Decimal.digits d.coefficient) (leading d + 1)
  else scientific (Decimal.digits d.coefficient) (leading d)

theorem chars_positional (ds : List Char) (whole : Int) :
    layout.positional ds whole = (positional ds whole).chars := by
  have hpoint : (if layout.wholePoint then ['.', '0'] else []) = ['.', '0'] := rfl
  rw [Decimal.Layout.positional, positional, hpoint]
  split_ifs with hsmall hshort <;> simp [chars, fractionChars, exponentChars]

theorem chars_scientific (ds : List Char) (leading : Int) :
    layout.scientific ds leading = (scientific ds leading).chars := by
  have hsign : (if leading < 0 then ['-'] else if layout.exponentPlus then ['+'] else [])
      = [if decide (leading < 0) then '-' else '+'] := by
    by_cases hneg : leading < 0
    · simp [hneg]
    · simp [hneg, layout]
  unfold Decimal.Layout.scientific scientific
  simp only [hsign]
  match ds with
  | [] => simp [chars, fractionChars, exponentChars]
  | [d] => simp [chars, fractionChars, exponentChars]
  | d :: d' :: rest => simp [chars, fractionChars, exponentChars]

theorem chars_ofDecimal (d : Decimal) : layout.decimal d = (ofDecimal d).chars := by
  rw [ofDecimal]
  split_ifs with hplain
  · rw [← chars_positional]
    exact if_pos hplain
  · rw [← chars_scientific]
    exact if_neg hplain

section

variable {ds : List Char}

theorem areDigits_replicate (k : Nat) : ∀ c ∈ List.replicate k '0', isDigit c = true := by
  intro c hc
  rw [List.eq_of_mem_replicate hc]
  rfl

theorem areDigits_zero : AreDigits ['0'] := ⟨by simp, areDigits_replicate 1⟩

theorem wellFormed_positional (hds : AreDigits ds) (hhead : ds.head? ≠ some '0') (whole : Int) :
    (positional ds whole).WellFormed := by
  obtain ⟨hnonempty, hdigits⟩ := hds
  rw [positional]
  split_ifs with hsmall hshort
  · refine ⟨areDigits_zero, fun _ => rfl, ?_, nofun⟩
    rintro _ ⟨⟩
    exact ⟨by simp [hnonempty], List.forall_mem_append.mpr ⟨areDigits_replicate _, hdigits⟩⟩
  · refine ⟨⟨by simp [hnonempty], List.forall_mem_append.mpr ⟨hdigits, areDigits_replicate _⟩⟩,
      ?_, ?_, nofun⟩
    · rw [List.head?_append_of_ne_nil _ hnonempty]
      exact fun hzero => absurd hzero hhead
    · rintro _ ⟨⟩
      exact areDigits_zero
  · refine ⟨⟨?_, fun c hc => hdigits c (List.mem_of_mem_take hc)⟩, ?_, ?_, nofun⟩
    · simp only [ne_eq, List.take_eq_nil_iff, hnonempty, or_false]
      omega
    · rw [List.head?_take, if_neg (by omega)]
      exact fun hzero => absurd hzero hhead
    · rintro _ ⟨⟩
      refine ⟨?_, fun c hc => hdigits c (List.mem_of_mem_drop hc)⟩
      rw [ne_eq, List.drop_eq_nil_iff]
      exact hshort

theorem wellFormed_scientific (hds : AreDigits ds) (leading : Int) :
    (scientific ds leading).WellFormed := by
  obtain ⟨hnonempty, hdigits⟩ := hds
  refine ⟨⟨?_, fun c hc => hdigits c (List.mem_of_mem_take hc)⟩, fun _ => ?_, ?_, ?_⟩
  · simp [scientific, hnonempty]
  · have := List.length_pos_iff.mpr hnonempty
    simp only [scientific, List.length_take]
    omega
  · intro ds' hfraction
    simp only [scientific] at hfraction
    split_ifs at hfraction with hsingle
    cases hfraction
    refine ⟨?_, fun c hc => hdigits c (List.mem_of_mem_drop hc)⟩
    rw [ne_eq, List.drop_eq_nil_iff]
    exact hsingle
  · rintro _ _ ⟨⟩
    exact areDigits_digits _

theorem coefficient_numeral (negative : Bool) (t : NumberText) :
    (t.numeral negative).coefficient
      = Nat.ofDigitChars 10 (t.whole ++ t.fraction.getD []) 0 := by
  have hfraction : (t.fraction.map digitValues).getD [] = digitValues (t.fraction.getD []) := by
    cases t.fraction <;> rfl
  show Numeral.total (Numeral.total 0 (digitValues t.whole)) ((t.fraction.map digitValues).getD [])
    = _
  rw [hfraction, total_digitValues, total_digitValues, Nat.ofDigitChars_append]

theorem power_numeral (negative : Bool) (t : NumberText) :
    (t.numeral negative).power
      = (t.numeral negative).writtenExponent - (t.fraction.getD []).length := by
  have hfraction : ((t.fraction.map digitValues).getD []).length = (t.fraction.getD []).length := by
    cases t.fraction <;> simp [digitValues]
  show _ - (((t.fraction.map digitValues).getD []).length : Int) = _
  rw [hfraction]

theorem size_positional (negative : Bool) (ds : List Char) (whole : Int) :
    ((positional ds whole).numeral negative).size
      = Nat.ofDigitChars 10 ds 0 * 10 ^ (whole - ds.length) := by
  have hten : (10 : ℚ) ≠ 0 := by norm_num
  rw [Numeral.size, coefficient_numeral, power_numeral, positional]
  split_ifs with hsmall hshort
  · have hzeros : Nat.ofDigitChars 10 (['0'] ++ (List.replicate (-whole).toNat '0' ++ ds)) 0
        = Nat.ofDigitChars 10 ds 0 := by
      simp [Nat.ofDigitChars_append, Nat.ofDigitChars_cons, Nat.ofDigitChars_replicate_zero]
    have hpower : (0 : Int) - (List.replicate (-whole).toNat '0' ++ ds).length
        = whole - ds.length := by
      simp only [List.length_append, List.length_replicate]
      omega
    exact congrArg₂ (fun (c : Nat) (p : Int) => (c * 10 ^ p : ℚ)) hzeros hpower
  · have hzeros : Nat.ofDigitChars 10
          (ds ++ List.replicate (whole.toNat - ds.length) '0' ++ ['0']) 0
        = 10 * (10 ^ (whole.toNat - ds.length) * Nat.ofDigitChars 10 ds 0) := by
      simp [Nat.ofDigitChars_append, Nat.ofDigitChars_cons, Nat.ofDigitChars_replicate_zero]
    have hpower : whole - ds.length = (whole.toNat - ds.length : Nat) := by omega
    show (Nat.ofDigitChars 10 (ds ++ List.replicate (whole.toNat - ds.length) '0' ++ ['0']) 0 : ℚ)
      * 10 ^ (0 - 1 : Int) = _
    rw [hzeros, hpower, zpow_natCast]
    push_cast
    norm_num
    ring
  · have hpower : (0 : Int) - (ds.drop whole.toNat).length = whole - ds.length := by
      rw [List.length_drop]
      omega
    show (Nat.ofDigitChars 10 (ds.take whole.toNat ++ ds.drop whole.toNat) 0 : ℚ)
      * 10 ^ ((0 : Int) - (ds.drop whole.toNat).length) = _
    rw [List.take_append_drop, hpower]

theorem size_scientific (negative : Bool) (hds : ds ≠ []) (leading : Int) :
    ((scientific ds leading).numeral negative).size
      = Nat.ofDigitChars 10 ds 0 * 10 ^ (leading - ds.length + 1) := by
  have hexponent : ((scientific ds leading).numeral negative).writtenExponent = leading := by
    show (if decide (leading < 0) then
      -(Numeral.total 0 (digitValues (Decimal.digits leading.natAbs)) : Int)
      else Numeral.total 0 (digitValues (Decimal.digits leading.natAbs))) = leading
    rw [total_digits]
    split_ifs with hneg <;> simp at hneg <;> omega
  have hfraction : (scientific ds leading).fraction.getD [] = ds.drop 1 := by
    simp only [scientific]
    split_ifs with hsingle
    · exact (List.drop_eq_nil_iff.mpr hsingle).symm
    · rfl
  have hpower : leading - (ds.drop 1).length = leading - ds.length + 1 := by
    have := List.length_pos_iff.mpr hds
    rw [List.length_drop]
    omega
  rw [Numeral.size, coefficient_numeral, power_numeral, hexponent, hfraction, hpower]
  show (Nat.ofDigitChars 10 (ds.take 1 ++ ds.drop 1) 0 : ℚ) * _ = _
  rw [List.take_append_drop]

end

theorem size_ofDecimal (negative : Bool) (d : Decimal) :
    ((ofDecimal d).numeral negative).size = d.size := by
  have hdigits : Nat.ofDigitChars 10 (Decimal.digits d.coefficient) 0 = d.coefficient :=
    Nat.ofDigitChars_ten_toDigits
  rw [ofDecimal]
  split_ifs with hplain
  · rw [size_positional, hdigits, leading]
    congr 2
    omega
  · rw [size_scientific negative (areDigits_digits _).1, hdigits, leading]
    congr 2
    omega

theorem length_whole_ofDecimal (d : Decimal) : (ofDecimal d).whole.length ≤ 16 := by
  rw [ofDecimal]
  split_ifs with hplain
  · have hshort : leading d ≤ 15 := by
      simpa [Decimal.Layout.isPlain, layout] using (Bool.and_eq_true_iff.mp hplain).2
    rw [positional]
    split_ifs <;> simp <;> omega
  · simp only [scientific, List.length_take]
    omega

/-- A decimal is at least the power of ten of its first digit. -/
theorem pow_leading_le {d : Decimal} (hd : d.coefficient ≠ 0) :
    (10 : ℚ) ^ leading d ≤ d.size := by
  have hnonempty := List.length_pos_iff.mpr (areDigits_digits d.coefficient).1
  have hsplit : leading d = ((Decimal.digits d.coefficient).length - 1 : Nat) + d.scale := by
    rw [leading]
    omega
  rw [hsplit, zpow_add₀ (by norm_num), zpow_natCast, Decimal.size]
  gcongr
  exact_mod_cast pow_le_of_length_digits hd

theorem leading_lt {d : Decimal} (hd : d.coefficient ≠ 0)
    (hsmall : 2 * d.size ≤ Numeral.safeBound) : leading d < 309 := by
  have hbound : (Numeral.safeBound : ℚ) < 2 * 10 ^ (309 : Int) := by
    obtain ⟨-, -, -, -, -, hnat⟩ := Numeral.lastPlace_bounds
    exact_mod_cast hnat
  have hpow : (10 : ℚ) ^ leading d < 10 ^ (309 : Int) := by
    have := pow_leading_le hd
    linarith
  exact (zpow_lt_zpow_iff_right₀ (by norm_num)).mp hpow

/-- What a number is written as, or the decimal that would be written were seventeen digits not
enough. -/
def IsWritten (d : Decimal) : Prop := d.coefficient ≠ 0 ∨ d = ⟨0, 17⟩

theorem wellFormed_ofDecimal {d : Decimal} (hd : IsWritten d) : (ofDecimal d).WellFormed := by
  rcases hd with hd | rfl
  · rw [ofDecimal]
    split_ifs
    · exact wellFormed_positional (areDigits_digits _) (head_digits hd) _
    · exact wellFormed_scientific (areDigits_digits _) _
  · rw [ofDecimal, if_neg (by decide)]
    exact wellFormed_scientific (areDigits_digits _) _

theorem exists_value_ofDecimal (negative : Bool) {d : Decimal} (hd : IsWritten d)
    (hsmall : 2 * d.size ≤ Numeral.safeBound) :
    ∃ j, ((ofDecimal d).numeral negative).value? = some j := by
  have hleading : leading d < 309 := by
    rcases hd with hd | rfl
    · exact leading_lt hd hsmall
    · decide
  refine Numeral.exists_value ?_ ?_ ((size_ofDecimal negative d).symm ▸ hsmall)
  · show Numeral.total 0 (digitValues (ofDecimal d).whole) ≤ _
    rw [total_digitValues]
    have hlt := ofDigitChars_lt (wellFormed_ofDecimal hd).whole.2 0
    have hpow : 10 ^ (ofDecimal d).whole.length ≤ 10 ^ 16 :=
      Nat.pow_le_pow_right (by decide) (length_whole_ofDecimal d)
    have hlimit : 10 ^ 16 ≤ Numeral.significandLimit := by decide
    omega
  · intro es hes
    rw [ofDecimal] at hes
    split_ifs at hes with hplain
    · rw [positional] at hes
      split_ifs at hes <;> cases hes
    · simp only [numeral, scientific, Option.map_some, Option.some.injEq, Prod.mk.injEq,
        decide_eq_false_iff_not] at hes
      obtain ⟨hnonneg, rfl⟩ := hes
      have htotal := total_digits (leading d).natAbs
      have hlimit : 309 ≤ Numeral.exponentLimit := by decide
      omega

end NumberText

/-! ## Doubles and integers -/

theorem shortest_congr {f g : Binary64} (hfg : f.magnitude = g.magnitude) (tie : Decimal.Tie) :
    Decimal.shortest tie f = Decimal.shortest tie g := by
  have hbiased : f.biasedExponent = g.biasedExponent := congrArg (· / hiddenUnit) hfg
  have hfraction : f.fraction = g.fraction := congrArg (· % hiddenUnit) hfg
  have hsignificand : f.significand = g.significand := by
    rw [significand, significand, hbiased, hfraction]
  have hspan : Decimal.Span.ofBinary64 f = Decimal.Span.ofBinary64 g := by
    rw [Decimal.Span.ofBinary64, Decimal.Span.ofBinary64, exponent, exponent, hbiased, hsignificand]
  simp only [Decimal.shortest, hspan]

/-- The three largest doubles. -/
def largestDoubles : List Binary64 :=
  [⟨0x7FEFFFFFFFFFFFFF⟩, ⟨0x7FEFFFFFFFFFFFFE⟩, ⟨0x7FEFFFFFFFFFFFFD⟩]

theorem exists_mem_largestDoubles {f : Binary64} (hfinite : f.isFinite = true)
    (hlarge : infiniteMagnitude ≤ f.magnitude + 3) :
    ∃ g ∈ largestDoubles, f.magnitude = g.magnitude := by
  rw [isFinite, decide_eq_true_iff] at hfinite
  have hinfinite : infiniteMagnitude = 0x7FF0000000000000 := by decide
  have hmagnitudes : largestDoubles.map magnitude
      = [0x7FEFFFFFFFFFFFFF, 0x7FEFFFFFFFFFFFFE, 0x7FEFFFFFFFFFFFFD] := by decide
  have hmem : f.magnitude ∈ largestDoubles.map magnitude := by
    rw [hmagnitudes, List.mem_cons, List.mem_cons, List.mem_singleton]
    omega
  obtain ⟨g, hg, hgf⟩ := List.mem_map.mp hmem
  exact ⟨g, hg, hgf.symm⟩

/-- The three largest doubles, one by one. -/
theorem exists_value_of_largest (negative : Bool) {f : Binary64} (hfinite : f.isFinite = true)
    (hlarge : infiniteMagnitude ≤ f.magnitude + 3) :
    ∃ j, ((NumberText.ofDecimal (Decimal.shortest .even f)).numeral negative).value? = some j := by
  have htable : ∀ g ∈ largestDoubles, ∀ negative,
      ((NumberText.ofDecimal (Decimal.shortest .even g)).numeral negative).value?.isSome := by
    decide +kernel
  obtain ⟨g, hg, hfg⟩ := exists_mem_largestDoubles hfinite hlarge
  rw [← Option.isSome_iff_exists, shortest_congr hfg]
  exact htable g hg negative

/-- A text that is read as a number, whatever follows it. -/
def IsNumberText (cs : List Char) : Prop :=
  ∃ (negative : Bool) (t : NumberText), cs = (if negative then ['-'] else []) ++ t.chars ∧
    t.WellFormed ∧ ∃ j, (t.numeral negative).value? = some j

theorem isNumberText_float {f : Binary64} (hfinite : f.isFinite = true) :
    IsNumberText (layout.text f).toList := by
  have hsign : (if f.isNegative then "-" else "").toList
      = if f.isNegative then ['-'] else [] := by
    cases f.isNegative <;> rfl
  have htext : layout.text f = (if f.isNegative then "-" else "") ++
      (if f.magnitude = 0 then "0.0"
        else String.ofList (layout.decimal (Decimal.shortest .even f))) := by
    rw [Decimal.Layout.text, isNaN_of_isFinite hfinite, isInfinite_of_isFinite hfinite,
      if_neg Bool.false_ne_true, if_neg Bool.false_ne_true]
    by_cases hzero : f.magnitude = 0
    · rw [if_pos hzero, if_pos hzero]
      rfl
    · rw [if_neg hzero, if_neg hzero]
      rfl
  rw [htext, String.toList_append, hsign]
  by_cases hzero : f.magnitude = 0
  · rw [if_pos hzero]
    refine ⟨f.isNegative, ⟨['0'], some ['0'], none⟩, rfl, ?_, ?_⟩
    · refine ⟨NumberText.areDigits_zero, fun _ => rfl, ?_, nofun⟩
      rintro _ ⟨⟩
      exact NumberText.areDigits_zero
    · cases f.isNegative <;> exact ⟨_, rfl⟩
  · rw [if_neg hzero, String.toList_ofList, NumberText.chars_ofDecimal]
    refine ⟨f.isNegative, _, rfl, NumberText.wellFormed_ofDecimal
      (Decimal.coefficient_shortest .even hzero), ?_⟩
    by_cases hsafe : f.magnitude + 3 < infiniteMagnitude
    · exact NumberText.exists_value_ofDecimal _ (Decimal.coefficient_shortest .even hzero)
        (Decimal.size_shortest_le .even hsafe)
    · exact exists_value_of_largest _ hfinite (Nat.not_lt.mp hsafe)

theorem toList_toString_int (n : Int) :
    (toString n).toList = (if decide (n < 0) then ['-'] else []) ++ Decimal.digits n.natAbs := by
  rw [Int.toString_eq_repr, Int.repr_eq_if]
  by_cases hneg : n < 0
  · rw [if_neg (by omega), decide_eq_true hneg, String.toList_append, Nat.toList_repr,
      show (-n).toNat = n.natAbs by omega]
    rfl
  · rw [if_pos (by omega), decide_eq_false hneg, Nat.toList_repr,
      show n.toNat = n.natAbs by omega]
    rfl

theorem isNumberText_int {n : Int} (hleast : -2 ^ 63 ≤ n) (hgreatest : n < 2 ^ 64) :
    IsNumberText (toString n).toList := by
  refine ⟨decide (n < 0), ⟨Decimal.digits n.natAbs, none, none⟩, ?_, ?_, ?_⟩
  · rw [toList_toString_int, NumberText.chars, NumberText.fractionChars, NumberText.exponentChars,
      List.append_nil, List.append_nil]
  · refine ⟨areDigits_digits _, fun hzero => ?_, nofun, nofun⟩
    by_cases hn : n.natAbs = 0
    · show (Decimal.digits n.natAbs).length = 1
      rw [hn]
      rfl
    · exact absurd hzero (head_digits hn)
  · refine Numeral.exists_value_of_whole _ ?_
    have hlimit : Numeral.significandLimit = 2 ^ 64 - 1 := by decide
    rw [total_digits]
    omega

end LuaBytecode.Json
