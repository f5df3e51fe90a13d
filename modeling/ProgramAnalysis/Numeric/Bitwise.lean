/-!
Bitwise operations on integers in two's complement: a negative number has infinitely many leading
ones. A number `-(n + 1)` is the complement of `n`, which reduces everything to natural numbers.
-/
namespace ProgramAnalysis

namespace Bitwise

/-- The digits of `m` where `n` has none. -/
def without (m n : Nat) : Nat := m - (m &&& n)

def not (a : Int) : Int := -a - 1

def and : Int → Int → Int
  | .ofNat m, .ofNat n => (m &&& n : Nat)
  | .ofNat m, .negSucc n => without m n
  | .negSucc m, .ofNat n => without n m
  | .negSucc m, .negSucc n => .negSucc (m ||| n)

def or : Int → Int → Int
  | .ofNat m, .ofNat n => (m ||| n : Nat)
  | .ofNat m, .negSucc n => .negSucc (without n m)
  | .negSucc m, .ofNat n => .negSucc (without m n)
  | .negSucc m, .negSucc n => .negSucc (m &&& n)

def xor : Int → Int → Int
  | .ofNat m, .ofNat n => (m ^^^ n : Nat)
  | .ofNat m, .negSucc n => .negSucc (m ^^^ n)
  | .negSucc m, .ofNat n => .negSucc (m ^^^ n)
  | .negSucc m, .negSucc n => (m ^^^ n : Nat)

theorem not_ofNat (n : Nat) : not (.ofNat n) = .negSucc n := by
  simp only [not, Int.ofNat_eq_natCast, Int.negSucc_eq]
  omega

theorem not_negSucc (n : Nat) : not (.negSucc n) = .ofNat n := by
  simp only [not, Int.ofNat_eq_natCast, Int.negSucc_eq]
  omega

@[simp] theorem not_not (a : Int) : not (not a) = a := by
  simp only [not]
  omega

theorem or_eq (a b : Int) : or a b = not (and (not a) (not b)) := by
  cases a with
  | ofNat m =>
    cases b with
    | ofNat n =>
      rw [not_ofNat, not_ofNat]
      exact (not_negSucc (m ||| n)).symm
    | negSucc n =>
      rw [not_ofNat, not_negSucc]
      exact (not_ofNat (without n m)).symm
  | negSucc m =>
    cases b with
    | ofNat n =>
      rw [not_ofNat, not_negSucc]
      exact (not_ofNat (without m n)).symm
    | negSucc n =>
      rw [not_negSucc, not_negSucc]
      exact (not_ofNat (m &&& n)).symm

end Bitwise

end ProgramAnalysis
