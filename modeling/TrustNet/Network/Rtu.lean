import Mathlib.Algebra.Order.Field.Rat
import Mathlib.Tactic.FieldSimp
import Mathlib.Tactic.Ring
import TrustNet.Core.Types

/-!
# Displayed amounts (`network/trusteeTransactions.go`)

An amount counts millionths of a unit. `String` prints the units, a point and the
millionths that are left, both as numbers. A number is printed without leading zeros, so
the digits after the point are millionths only if there are six of them, or if they are
zero.
-/

namespace TrustNet
set_option autoImplicit false

/-- `RTU`. -/
abbrev RTU := UInt64

def rtuDivisor : UInt64 := 1000000

namespace RTU

/-- `Units`. -/
def units (rtu : RTU) : UInt64 := rtu / rtuDivisor

/-- `Decimals`. -/
def decimals (rtu : RTU) : UInt64 := rtu % rtuDivisor

end RTU

/-- `fmt.Sprintf("%d", n)`. -/
def printUint (n : UInt64) : List Char := Nat.toDigits 10 n.toNat

/-- `String`, that is `fmt.Sprintf("%d.%d", units, decimals)`. -/
def RTU.string (rtu : RTU) : String := .ofList (printUint rtu.units ++ '.' :: printUint rtu.decimals)

/-- The number that a text denotes in decimal notation: digits, a point and digits. -/
def decimalValue (text : String) : Option ℚ :=
  let whole := text.toList.takeWhile Char.isDigit
  match text.toList.dropWhile Char.isDigit with
  | '.' :: fraction =>
    if whole ≠ [] ∧ fraction ≠ [] ∧ fraction.all Char.isDigit then
      some (Nat.ofDigitChars 10 whole 0 + Nat.ofDigitChars 10 fraction 0 / 10 ^ fraction.length)
    else none
  | _ => none

/-- The text denotes the amount in units. -/
def RTU.Exact (rtu : RTU) : Prop := decimalValue rtu.string = some ((rtu.toNat : ℚ) / 1000000)

/-- The millionths have six digits, or there are none. -/
def RTU.SixDigits (rtu : RTU) : Prop := rtu.decimals = 0 ∨ 100000 ≤ rtu.decimals

instance (rtu : RTU) : Decidable rtu.SixDigits := inferInstanceAs (Decidable (_ ∨ _))

/-! ## What is printed -/

theorem isDigit_printUint {n : UInt64} {c : Char} (member : c ∈ printUint n) : c.isDigit = true :=
  Nat.isDigit_of_mem_toDigits (by decide) (by decide) member

/-- What the text denotes, with as many digits after the point as the millionths have. -/
theorem decimalValue_string (rtu : RTU) :
    decimalValue rtu.string =
      some ((rtu.units.toNat : ℚ) + rtu.decimals.toNat / 10 ^ (printUint rtu.decimals).length) := by
  have whole : ∀ c ∈ printUint rtu.units, c.isDigit = true := fun c => isDigit_printUint
  have point : Char.isDigit '.' = false := by decide
  have fraction : (printUint rtu.decimals).all Char.isDigit = true :=
    List.all_eq_true.mpr fun c => isDigit_printUint
  unfold decimalValue RTU.string
  rw [String.toList_ofList, List.takeWhile_append_of_pos whole, List.dropWhile_append_of_pos whole,
    List.takeWhile_cons_of_neg (by simp [point]), List.dropWhile_cons_of_neg (by simp [point]), List.append_nil]
  simp only
  rw [if_pos ⟨Nat.toDigits_ne_nil, Nat.toDigits_ne_nil, fraction⟩]
  simp only [printUint, Nat.ofDigitChars_ten_toDigits]

theorem toNat_decimals (rtu : RTU) : rtu.decimals.toNat = rtu.toNat % 1000000 := UInt64.toNat_mod rtu rtuDivisor

theorem toNat_units (rtu : RTU) : rtu.units.toNat = rtu.toNat / 1000000 := UInt64.toNat_div rtu rtuDivisor

theorem length_decimals_iff (rtu : RTU) : (printUint rtu.decimals).length = 6 ↔ 100000 ≤ rtu.decimals := by
  have bound : rtu.decimals.toNat < 10 ^ 6 := by
    rw [toNat_decimals]
    exact Nat.mod_lt _ (by decide)
  have atMost : (printUint rtu.decimals).length ≤ 6 := (Nat.length_toDigits_le_iff (by decide) (by decide)).mpr bound
  have short : (printUint rtu.decimals).length ≤ 5 ↔ rtu.decimals.toNat < 10 ^ 5 :=
    Nat.length_toDigits_le_iff (by decide) (by decide)
  have literal : UInt64.toNat 100000 = 100000 := rfl
  rw [UInt64.le_iff_toNat_le, literal]
  omega

theorem sixDigits_iff (rtu : RTU) :
    rtu.SixDigits ↔ rtu.decimals.toNat = 0 ∨ (printUint rtu.decimals).length = 6 := by
  rw [length_decimals_iff, RTU.SixDigits, ← UInt64.toNat_inj, UInt64.toNat_zero]

/-- The fraction of an amount, in units. -/
theorem amount_eq (rtu : RTU) : (rtu.toNat : ℚ) / 1000000 = rtu.units.toNat + rtu.decimals.toNat / 10 ^ 6 := by
  have split : rtu.toNat = 1000000 * rtu.units.toNat + rtu.decimals.toNat := by
    rw [toNat_units, toNat_decimals]
    exact (Nat.div_add_mod rtu.toNat 1000000).symm
  rw [split]
  push_cast
  field_simp
  ring

/-- Digits after the point are worth as much as millionths only if there are six, or if they are zero. -/
theorem fraction_eq_iff (n k : ℕ) : (n : ℚ) / 10 ^ k = n / 10 ^ 6 ↔ n = 0 ∨ k = 6 := by
  constructor
  · intro same
    by_cases zero : n = 0
    · exact Or.inl zero
    · refine Or.inr ?_
      rw [div_eq_div_iff (pow_ne_zero k (by norm_num)) (by norm_num)] at same
      have powers : (10 : ℚ) ^ 6 = 10 ^ k := mul_left_cancel₀ (Nat.cast_ne_zero.mpr zero) same
      exact (pow_right_injective₀ (by norm_num) (by norm_num) powers).symm
  · rintro (rfl | rfl)
    · simp
    · rfl

theorem exact_iff (rtu : RTU) : rtu.Exact ↔ rtu.SixDigits := by
  rw [RTU.Exact, decimalValue_string, amount_eq, Option.some.injEq, add_right_inj, fraction_eq_iff, sixDigits_iff]

/-! ## Two amounts -/

/-- The texts denote numbers that compare as the amounts do. -/
def RTU.Ordered (r s : RTU) : Prop :=
  ∃ x y, decimalValue r.string = some x ∧ decimalValue s.string = some y ∧ (x = y ↔ r = s) ∧ (x ≤ y ↔ r ≤ s)

theorem ordered_of_exact {r s : RTU} (shown : r.Exact) (shown' : s.Exact) : r.Ordered s := by
  refine ⟨_, _, shown, shown', ?_, ?_⟩
  · rw [div_left_inj' (by norm_num), Nat.cast_inj, UInt64.toNat_inj]
  · rw [div_le_div_iff_of_pos_right (by norm_num), Nat.cast_le, UInt64.le_iff_toNat_le]

/-- **An amount is displayed exactly if and only if its millionths have six digits or are zero.** The amounts that are
displayed exactly are told apart by their texts, which are in the order of the amounts. -/
theorem displayed_exactly_iff (r : RTU) :
    (r.Exact ↔ r.SixDigits) ∧ ∀ s : RTU, r.SixDigits → s.SixDigits → r.Ordered s := by
  refine ⟨exact_iff r, fun s six six' => ?_⟩
  exact ordered_of_exact ((exact_iff r).mpr six) ((exact_iff s).mpr six')

theorem displayed_exactly_six_digits :
    RTU.string 12345678901234567890 = "12345678901234.567890" ∧ RTU.Exact 12345678901234567890 ∧
      RTU.Ordered 12345678901234567890 7000000 := by
  have six : RTU.SixDigits 12345678901234567890 ∧ RTU.SixDigits 7000000 := by decide +kernel
  refine ⟨by decide +kernel, (displayed_exactly_iff _).1.mpr six.1, ?_⟩
  exact (displayed_exactly_iff _).2 _ six.1 six.2

/-- One millionth reads as a tenth, which is the number that a hundred thousand millionths read as. -/
theorem millionth_reads_as_tenth :
    RTU.string 1 = "0.1" ∧ ¬ RTU.Exact 1 ∧ decimalValue (RTU.string 1) = decimalValue (RTU.string 100000) ∧
      ¬ RTU.Ordered 1 100000 := by
  have text : RTU.string 1 = "0.1" ∧ RTU.string 100000 = "0.100000" := by decide +kernel
  have read : decimalValue "0.1" = some (1 / 10) ∧ decimalValue "0.100000" = some (1 / 10) := by
    decide +kernel
  have same : decimalValue (RTU.string 1) = decimalValue (RTU.string 100000) := by
    rw [text.1, text.2, read.1, read.2]
  refine ⟨text.1, ?_, same, ?_⟩
  · rw [exact_iff]
    decide +kernel
  · rintro ⟨x, y, first, second, distinct, -⟩
    rw [same, second, Option.some.injEq] at first
    exact absurd (distinct.mp first.symm) (by decide)

end TrustNet
