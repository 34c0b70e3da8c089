import TrustNet.Core.Types

/-!
# Numbers and hex strings as bytes (`core/types.go`)

A 64 bit number is written as eight bytes, big endian, and is read back from the
first eight bytes of any slice. `fmt.Sprintf("%x", ...)` prints two digits for each
byte, so the printed text determines the bytes.
-/

namespace TrustNet
set_option autoImplicit false

/-! ## Numbers -/

/-- `core.BytesToByte8(source).Uint64()`: the first eight bytes, padded with zeros. -/
def bytesToUint64 (source : Bytes) : UInt64 :=
  ((source ++ List.replicate 8 0).take 8).foldl (fun (n : UInt64) (b : UInt8) => n * 256 + b.toUInt64) 0

@[simp] theorem length_uint64Bytes (n : UInt64) : (uint64Bytes n).length = 8 := rfl

/-- A number that is written is read back. -/
theorem bytesToUint64_uint64Bytes (n : UInt64) : bytesToUint64 (uint64Bytes n) = n := by
  apply UInt64.toNat_inj.mp
  have bound := n.toNat_lt
  simp only [bytesToUint64, uint64Bytes, List.cons_append, List.nil_append, List.take_succ_cons, List.take_zero,
    List.foldl_cons, List.foldl_nil, UInt64.toNat_add, UInt64.toNat_mul, UInt8.toNat_toUInt64, UInt64.toNat_toUInt8,
    UInt64.toNat_shiftRight, UInt64.reduceToNat, Nat.shiftRight_eq_div_pow, Nat.reduceMod, Nat.reducePow,
    Nat.zero_mul, Nat.zero_mod, Nat.zero_add]
  omega

theorem uint64Bytes_injective {m n : UInt64} (same : uint64Bytes m = uint64Bytes n) : m = n := by
  rw [← bytesToUint64_uint64Bytes m, same, bytesToUint64_uint64Bytes]

theorem bytesToUint64_nil : bytesToUint64 [] = 0 := rfl

/-! ## Hex strings -/

/-- The lower case digit of a number below 16. -/
def hexDigit (n : UInt8) : UInt8 := if n < 10 then 48 + n else 87 + n

/-- `bytesToHexString`, that is `fmt.Sprintf("%x", bytes)`. -/
def bytesToHexString (bytes : Bytes) : Bytes := bytes.flatMap fun b => [hexDigit (b / 16), hexDigit (b % 16)]

theorem toNat_sixteen : UInt8.toNat 16 = 16 := rfl

theorem hexDigit_injective {m n : UInt8} (boundM : m < 16) (boundN : n < 16) (same : hexDigit m = hexDigit n) : m = n := by
  rw [UInt8.lt_iff_toNat_lt, toNat_sixteen] at boundM boundN
  have eq := congrArg UInt8.toNat same
  apply UInt8.toNat_inj.mp
  unfold hexDigit at eq
  split at eq <;> split at eq <;> rename_i lowM lowN <;> rw [UInt8.lt_iff_toNat_lt] at lowM lowN <;>
    simp only [UInt8.toNat_add, UInt8.toNat_ofNat] at eq lowM lowN <;> omega

theorem div_lt_sixteen (b : UInt8) : b / 16 < 16 := by
  rw [UInt8.lt_iff_toNat_lt, UInt8.toNat_div, toNat_sixteen]
  have bound := b.toNat_lt
  omega

theorem mod_lt_sixteen (b : UInt8) : b % 16 < 16 := by
  rw [UInt8.lt_iff_toNat_lt, UInt8.toNat_mod, toNat_sixteen]
  omega

theorem eq_of_digits {b c : UInt8} (high : b / 16 = c / 16) (low : b % 16 = c % 16) : b = c := by
  apply UInt8.toNat_inj.mp
  have highNat := congrArg UInt8.toNat high
  have lowNat := congrArg UInt8.toNat low
  rw [UInt8.toNat_div, UInt8.toNat_div, toNat_sixteen] at highNat
  rw [UInt8.toNat_mod, UInt8.toNat_mod, toNat_sixteen] at lowNat
  omega

/-- Different bytes are printed differently. -/
theorem bytesToHexString_injective {xs ys : Bytes} (same : bytesToHexString xs = bytesToHexString ys) : xs = ys := by
  induction xs generalizing ys with
  | nil =>
    cases ys with
    | nil => rfl
    | cons y ys => simp [bytesToHexString] at same
  | cons x xs ih =>
    cases ys with
    | nil => simp [bytesToHexString] at same
    | cons y ys =>
      simp only [bytesToHexString, List.flatMap_cons, List.cons_append, List.nil_append, List.cons.injEq] at same
      obtain ⟨high, low, rest⟩ := same
      have highEq := hexDigit_injective (div_lt_sixteen x) (div_lt_sixteen y) high
      have lowEq := hexDigit_injective (mod_lt_sixteen x) (mod_lt_sixteen y) low
      rw [eq_of_digits highEq lowEq, ih rest]

end TrustNet
