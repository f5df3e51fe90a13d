import Mathlib.Algebra.Order.Ring.Int
import Mathlib.Data.Int.Bitwise
import Mathlib.Data.Nat.Bitwise
import Mathlib.Tactic.Linarith
import ProgramAnalysis.Numeric.Machine

/-! Machine arithmetic stays in the machine's range: what an operation makes of two machine numbers is
a machine number again. For the bitwise operations the range is a number of binary digits. -/
namespace ProgramAnalysis

namespace Bitwise

/-- A number needs at most `k` digits besides its sign. -/
def Digits (k : Nat) : Int → Prop
  | .ofNat n => n < 2 ^ k
  | .negSucc n => n < 2 ^ k

variable {k : Nat} {x y : Int}

theorem without_lt {m n : Nat} (small : m < 2 ^ k) : without m n < 2 ^ k :=
  Nat.lt_of_le_of_lt (Nat.sub_le _ _) small

theorem digits_and (left : Digits k x) (right : Digits k y) : Digits k (and x y) := by
  cases x with
  | ofNat m =>
    cases y with
    | ofNat n => exact Nat.lt_of_le_of_lt Nat.and_le_left left
    | negSucc n => exact without_lt left
  | negSucc m =>
    cases y with
    | ofNat n => exact without_lt right
    | negSucc n => exact Nat.or_lt_two_pow left right

theorem digits_or (left : Digits k x) (right : Digits k y) : Digits k (or x y) := by
  cases x with
  | ofNat m =>
    cases y with
    | ofNat n => exact Nat.or_lt_two_pow left right
    | negSucc n => exact without_lt right
  | negSucc m =>
    cases y with
    | ofNat n => exact without_lt left
    | negSucc n => exact Nat.lt_of_le_of_lt Nat.and_le_left left

theorem digits_xor (left : Digits k x) (right : Digits k y) : Digits k (xor x y) := by
  cases x with
  | ofNat m =>
    cases y with
    | ofNat n => exact Nat.xor_lt_two_pow left right
    | negSucc n => exact Nat.xor_lt_two_pow left right
  | negSucc m =>
    cases y with
    | ofNat n => exact Nat.xor_lt_two_pow left right
    | negSucc n => exact Nat.xor_lt_two_pow left right

/-! The operations are those of two's complement. -/

theorem without_halves (m n : Nat) : without m n / 2 = without (m / 2) (n / 2) ∧
    (without m n % 2 = 1 ↔ m % 2 = 1 ∧ ¬ n % 2 = 1) := by
  have below : m &&& n ≤ m := Nat.and_le_left
  have half : (m &&& n) / 2 = m / 2 &&& n / 2 := Nat.and_div_two
  have last : (m &&& n) % 2 = 1 ↔ m % 2 = 1 ∧ n % 2 = 1 := by simp
  simp only [without, ← half]
  omega

theorem testBit_without (m n i : Nat) : (without m n).testBit i = (m.testBit i && !n.testBit i) := by
  induction i generalizing m n with
  | zero =>
    rw [Bool.eq_iff_iff, Nat.testBit_zero, Nat.testBit_zero, Nat.testBit_zero, Bool.and_eq_true,
      Bool.not_eq_true', decide_eq_true_iff, decide_eq_true_iff, decide_eq_false_iff_not]
    exact (without_halves m n).2
  | succ i ih =>
    rw [Nat.testBit_succ, Nat.testBit_succ, Nat.testBit_succ, (without_halves m n).1, ih]

theorem without_eq (m n : Nat) : without m n = Nat.ldiff m n :=
  Nat.eq_of_testBit_eq fun i => by rw [testBit_without, Nat.testBit_ldiff]

theorem not_eq_lnot (x : Int) : not x = Int.lnot x := by
  cases x with
  | ofNat n => exact not_ofNat n
  | negSucc n => exact not_negSucc n

theorem and_eq_land (x y : Int) : and x y = Int.land x y := by
  cases x <;> cases y <;> simp [and, Int.land, without_eq]

theorem or_eq_lor (x y : Int) : or x y = Int.lor x y := by
  cases x <;> cases y <;> simp [or, Int.lor, without_eq]

theorem xor_eq_xor (x y : Int) : xor x y = Int.xor x y := by
  cases x <;> cases y <;> simp [xor, Int.xor]

theorem testBit_and (x y : Int) (i : Nat) :
    (and x y).testBit i = (x.testBit i && y.testBit i) := by
  rw [and_eq_land, Int.testBit_land]

theorem testBit_or (x y : Int) (i : Nat) :
    (or x y).testBit i = (x.testBit i || y.testBit i) := by
  rw [or_eq_lor, Int.testBit_lor]

/-- Far enough to the left the digits of a number tell its sign. -/
theorem testBit_ofNat_ne_negSucc (m n : Nat) :
    (Int.ofNat m).testBit (m + n) ≠ (Int.negSucc n).testBit (m + n) := by
  have clear (k : Nat) (le : k ≤ m + n) : k.testBit (m + n) = false :=
    Nat.testBit_lt_two_pow (Nat.lt_two_pow_self.trans_le (Nat.pow_le_pow_right two_pos le))
  simp [Int.testBit, clear]

theorem eq_of_testBit_eq (same : ∀ i, x.testBit i = y.testBit i) : x = y := by
  cases x with
  | ofNat m =>
    cases y with
    | ofNat n => exact congrArg Int.ofNat (Nat.eq_of_testBit_eq same)
    | negSucc n => exact absurd (same _) (testBit_ofNat_ne_negSucc m n)
  | negSucc m =>
    cases y with
    | ofNat n => exact absurd (same _).symm (testBit_ofNat_ne_negSucc n m)
    | negSucc n => exact congrArg Int.negSucc (Nat.eq_of_testBit_eq fun i => Bool.not_inj (same i))

end Bitwise

namespace Machine

open Bitwise (Digits)

variable {bound x y c : Int} {op : ArithOp} {k : Nat}

theorem fits_iff : fits bound x = true ↔ -bound ≤ x ∧ x < bound := by simp [fits]

theorem fits_of_checked (found : checked bound x = some c) : c = x ∧ fits bound x = true := by
  unfold checked at found
  split at found
  · rename_i inside
    exact ⟨(Option.some.inj found).symm, inside⟩
  · cases found

theorem fits_iff_digits : fits (2 ^ k) x = true ↔ Digits k x := by
  have cast : (2 : Int) ^ k = ((2 ^ k : Nat) : Int) := by simp
  rw [fits_iff, cast]
  cases x with
  | ofNat n =>
    simp only [Digits, Int.ofNat_eq_natCast]
    omega
  | negSucc n =>
    simp only [Digits, Int.negSucc_eq]
    omega

theorem fits_shiftRight (inside : fits bound x = true) (n : Nat) :
    fits bound (x >>> n) = true := by
  obtain ⟨low, high⟩ := fits_iff.mp inside
  have one : (1 : Int) ≤ ((2 ^ n : Nat) : Int) := Int.ofNat_le.mpr Nat.one_le_two_pow
  rw [fits_iff, Int.shiftRight_eq_div_pow]
  constructor
  · rw [Int.le_ediv_iff_mul_le (by omega)]
    have := Int.mul_le_mul_of_nonneg_left one (show (0 : Int) ≤ bound by omega)
    rw [Int.neg_mul]
    omega
  · rw [Int.ediv_lt_iff_lt_mul (by omega)]
    have := Int.mul_le_mul_of_nonneg_left one (show (0 : Int) ≤ bound by omega)
    omega

theorem fits_bmod (positive : 0 < bound) (i : Int) :
    fits bound (i.bmod (2 * bound.toNat)) = true := by
  have low := Int.le_bmod (x := i) (m := 2 * bound.toNat) (by omega)
  have high := Int.bmod_lt (x := i) (m := 2 * bound.toNat) (by omega)
  rw [fits_iff]
  omega

theorem bmod_of_fits {i : Int} (inside : fits bound i = true) : i.bmod (2 * bound.toNat) = i := by
  rw [fits_iff] at inside
  apply Int.bmod_eq_of_le_mul_two <;> omega

theorem fits_tmod (left : fits bound x = true) (y : Int) : fits bound (x.tmod y) = true := by
  obtain ⟨low, high⟩ := fits_iff.mp left
  have smaller : (x.tmod y).natAbs ≤ x.natAbs := by
    rw [Int.natAbs_tmod]
    exact Nat.mod_le _ _
  -- A remainder has the sign of `x`, and the bounds are not symmetric.
  rw [fits_iff]
  rcases Int.le_total 0 x with sign | sign
  · have := Int.tmod_nonneg y sign
    omega
  · have := Int.tmod_nonneg y (show 0 ≤ -x by omega)
    rw [Int.neg_tmod] at this
    omega

theorem fits_of_compute? (bits : bound = 2 ^ k) (left : fits bound x = true)
    (right : fits bound y = true) (found : compute? bound op x y = some c) :
    fits bound c = true := by
  have positive : 0 < bound := bits ▸ Int.pow_pos (by decide)
  cases op with
  | add =>
    obtain ⟨rfl, inside⟩ := fits_of_checked found
    exact inside
  | sub =>
    obtain ⟨rfl, inside⟩ := fits_of_checked found
    exact inside
  | mul =>
    obtain ⟨rfl, inside⟩ := fits_of_checked found
    exact inside
  | div =>
    simp only [compute?] at found
    split at found
    · cases found
    · obtain ⟨rfl, inside⟩ := fits_of_checked found
      exact inside
  | rem =>
    simp only [compute?] at found
    split at found
    · cases found
    · obtain ⟨q, -, rfl⟩ := Option.map_eq_some_iff.mp found
      exact fits_tmod left y
  | bitAnd =>
    cases found
    subst bits
    exact fits_iff_digits.mpr (Bitwise.digits_and (fits_iff_digits.mp left)
      (fits_iff_digits.mp right))
  | bitOr =>
    cases found
    subst bits
    exact fits_iff_digits.mpr (Bitwise.digits_or (fits_iff_digits.mp left)
      (fits_iff_digits.mp right))
  | bitXor =>
    cases found
    subst bits
    exact fits_iff_digits.mpr (Bitwise.digits_xor (fits_iff_digits.mp left)
      (fits_iff_digits.mp right))
  | shl =>
    simp only [compute?] at found
    split at found
    · cases found
      exact fits_bmod positive _
    · cases found
  | shr =>
    simp only [compute?] at found
    split at found
    · cases found
      exact fits_shiftRight left _
    · cases found

theorem fits_wider (inside : fits bound64 x = true) : fits bound128 x = true := by
  rw [fits_iff] at inside ⊢
  unfold bound64 at inside
  unfold bound128
  omega

theorem fits_neg (inside : fits bound64 x = true) : fits bound128 (-x) = true := by
  rw [fits_iff] at inside ⊢
  unfold bound64 at inside
  unfold bound128
  omega

/-- 64-bit numbers are far from the 128-bit bounds. -/
theorem fits_shift (inside : fits bound64 x = true) {n : Nat} (small : n ≤ 63) :
    fits bound128 (x * 2 ^ n) = true := by
  obtain ⟨low, high⟩ := fits_iff.mp inside
  have positive : (0 : Int) ≤ 2 ^ n := Int.pow_nonneg (by decide)
  have bound : (2 : Int) ^ n ≤ bound64 := pow_le_pow_right₀ (by decide) small
  rw [fits_iff]
  unfold bound64 bound128 at *
  constructor
  · nlinarith
  · nlinarith

/-- What is computed of 64-bit numbers has the same result among 128-bit numbers, unless a left shift drops
digits. -/
theorem compute?_wider (computed : compute? bound64 op x y = some c)
    (shift : op = .shl → 0 ≤ y → y ≤ 63 → fits bound64 (x * 2 ^ y.toNat) = true) :
    compute? bound128 op x y = some c := by
  have checked_wider {i : Int} (found : checked bound64 i = some c) : checked bound128 i = some c := by
    obtain ⟨rfl, inside⟩ := fits_of_checked found
    exact if_pos (fits_wider inside)
  cases op with
  | add | sub | mul => exact checked_wider computed
  | div =>
    simp only [compute?] at computed ⊢
    split at computed
    · cases computed
    · rename_i nonzero
      rw [if_neg nonzero]
      exact checked_wider computed
  | rem =>
    simp only [compute?] at computed ⊢
    split at computed
    · cases computed
    · rename_i nonzero
      obtain ⟨q, quotient, rfl⟩ := Option.map_eq_some_iff.mp computed
      obtain ⟨rfl, inside⟩ := fits_of_checked quotient
      rw [if_neg nonzero, checked, if_pos (fits_wider inside)]
      rfl
  | bitAnd | bitOr | bitXor | shr => exact computed
  | shl =>
    simp only [compute?] at computed ⊢
    split at computed
    · rename_i within
      cases computed
      -- Digits that the narrow shift drops stay in the wide one, so the result has to fit.
      have inside := shift rfl within.1 (by omega)
      rw [if_pos within, Int.shiftLeft_eq, bmod_of_fits inside, bmod_of_fits (fits_wider inside)]
    · cases computed

end Machine

end ProgramAnalysis
