import Mathlib.Algebra.Order.Ring.Nat
import Mathlib.Data.Nat.Pairing
import Mathlib.Data.Set.Function
import ProgramAnalysis.Numeric.Pairing

/-! The pairing of words with at most 32 digits is exact: it is the pairing of natural numbers, whose
shells below `2 ^ 32` fill the numbers below `2 ^ 64` to the last one. Every word is the number of
one such pair. -/
namespace ProgramAnalysis

namespace Pairing

variable {a b : UInt64}

def Short (a : UInt64) : Prop := a.toNat < 2 ^ 32

instance : DecidablePred Short := fun a => inferInstanceAs (Decidable (a.toNat < 2 ^ 32))

/-- The larger number of a pair names its shell, so the shells below `2 ^ 32` have all numbers below
`2 ^ 64` and no others. -/
theorem natPair_lt_iff (m n : Nat) : Nat.pair m n < 2 ^ 64 ↔ m < 2 ^ 32 ∧ n < 2 ^ 32 := by
  have square : (2 : Nat) ^ 64 = (2 ^ 32) ^ 2 := rfl
  rw [← Nat.max_lt, square]
  constructor
  · intro small
    have shell : max m n ^ 2 < (2 ^ 32) ^ 2 :=
      calc max m n ^ 2 ≤ max m n ^ 2 + min m n := Nat.le_add_right _ _
        _ ≤ Nat.pair m n := Nat.max_sq_add_min_le_pair m n
        _ < (2 ^ 32) ^ 2 := small
    exact lt_of_pow_lt_pow_left₀ 2 (Nat.zero_le _) shell
  · intro short
    calc Nat.pair m n < (max m n + 1) ^ 2 := Nat.pair_lt_max_add_one_sq m n
      _ ≤ (2 ^ 32) ^ 2 := Nat.pow_le_pow_left short 2

/-- Any two words are paired like natural numbers, modulo `2 ^ 64`. -/
theorem toNat_pair_mod (a b : UInt64) :
    (pair a b).toNat = Nat.pair a.toNat b.toNat % 2 ^ 64 := by
  unfold pair Nat.pair
  by_cases less : a < b
  · rw [if_pos less, if_pos (UInt64.lt_iff_toNat_lt.mp less)]
    simp
  · rw [if_neg less, if_neg (fun h => less (UInt64.lt_iff_toNat_lt.mpr h))]
    simp

theorem toNat_pair (left : Short a) (right : Short b) :
    (pair a b).toNat = Nat.pair a.toNat b.toNat := by
  rw [toNat_pair_mod, Nat.mod_eq_of_lt ((natPair_lt_iff _ _).mpr ⟨left, right⟩)]

theorem toNat_square (short : Short a) : (a * a).toNat = a.toNat ^ 2 := by
  have small : a.toNat ^ 2 < (2 ^ 32) ^ 2 := Nat.pow_lt_pow_left short two_ne_zero
  rw [UInt64.toNat_mul, ← sq]
  exact Nat.mod_eq_of_lt small

theorem pair_injOn : Set.InjOn (fun p : UInt64 × UInt64 => pair p.1 p.2)
    {p | Short p.1 ∧ Short p.2} := by
  rintro ⟨a, b⟩ ⟨shortA, shortB⟩ ⟨c, d⟩ ⟨shortC, shortD⟩ same
  have numbers : Nat.pair a.toNat b.toNat = Nat.pair c.toNat d.toNat := by
    rw [← toNat_pair shortA shortB, ← toNat_pair shortC shortD]
    exact congrArg UInt64.toNat same
  obtain ⟨left, right⟩ := Nat.pair_eq_pair.mp numbers
  rw [UInt64.toNat_inj.mp left, UInt64.toNat_inj.mp right]

/-- A word is the number of the pair that it stands for as a natural number. -/
theorem pair_surjOn : Set.SurjOn (fun p : UInt64 × UInt64 => pair p.1 p.2)
    {p | Short p.1 ∧ Short p.2} Set.univ := by
  intro n _
  obtain ⟨left, right⟩ : n.toNat.unpair.1 < 2 ^ 32 ∧ n.toNat.unpair.2 < 2 ^ 32 := by
    rw [← natPair_lt_iff, Nat.pair_unpair]
    exact n.toNat_lt
  have toNat_ofNat {m : Nat} (short : m < 2 ^ 32) : (UInt64.ofNat m).toNat = m :=
    UInt64.toNat_ofNat_of_lt (short.trans (by decide))
  refine ⟨(.ofNat n.toNat.unpair.1, .ofNat n.toNat.unpair.2), ⟨?_, ?_⟩, ?_⟩
  · exact (toNat_ofNat left).trans_lt left
  · exact (toNat_ofNat right).trans_lt right
  · apply UInt64.toNat_inj.mp
    rw [toNat_pair_mod, toNat_ofNat left, toNat_ofNat right, Nat.pair_unpair]
    exact Nat.mod_eq_of_lt n.toNat_lt

/-- On words with at most 32 digits no step of the pairing wraps around: products and sums are those of
natural numbers. The pairs of such words and all words correspond to each other. -/
theorem pair_exact_and_bijective :
    (∀ a b, Short a → Short b →
      (a < b → (b * b).toNat = b.toNat ^ 2 ∧ (pair a b).toNat = b.toNat ^ 2 + a.toNat) ∧
      (¬ a < b → (a * a).toNat = a.toNat ^ 2 ∧ (a * a + a).toNat = a.toNat ^ 2 + a.toNat ∧
        (pair a b).toNat = a.toNat ^ 2 + a.toNat + b.toNat)) ∧
    Set.BijOn (fun p : UInt64 × UInt64 => pair p.1 p.2) {p | Short p.1 ∧ Short p.2} Set.univ := by
  refine ⟨fun a b shortA shortB => ⟨fun less => ?_, fun notLess => ?_⟩,
    fun _ _ => Set.mem_univ _, pair_injOn, pair_surjOn⟩
  · have result := toNat_pair shortA shortB
    rw [Nat.pair, if_pos (UInt64.lt_iff_toNat_lt.mp less), ← sq] at result
    exact ⟨toNat_square shortB, result⟩
  · have result := toNat_pair shortA shortB
    rw [Nat.pair, if_neg (fun h => notLess (UInt64.lt_iff_toNat_lt.mpr h)), ← sq] at result
    refine ⟨toNat_square shortA, ?_, result⟩
    have bound := (pair a b).toNat_lt
    rw [UInt64.toNat_add, toNat_square shortA]
    exact Nat.mod_eq_of_lt (by omega)

/-- Near the top of the range both branches only just do not wrap around: the last numbers of all are
those of the largest pairs. -/
theorem pair_largest :
    (Short 0xfffffffe ∧ Short 0xffffffff ∧ (0xfffffffe : UInt64) < 0xffffffff ∧
      (pair 0xfffffffe 0xffffffff).toNat = 2 ^ 64 - 2 ^ 32 - 1) ∧
    ¬ (0xffffffff : UInt64) < 0xffffffff ∧ (pair 0xffffffff 0xffffffff).toNat = 2 ^ 64 - 1 := by
  have almost : Short 0xfffffffe := by decide
  have largest : Short 0xffffffff := by decide
  have less : (0xfffffffe : UInt64) < 0xffffffff := by decide
  have notLess : ¬ (0xffffffff : UInt64) < 0xffffffff := by decide
  obtain ⟨exact, -⟩ := pair_exact_and_bijective
  exact ⟨⟨almost, largest, less, ((exact _ _ almost largest).1 less).2⟩, notLess,
    ((exact _ _ largest largest).2 notLess).2.2⟩

end Pairing

end ProgramAnalysis
