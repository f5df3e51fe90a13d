import ProgramAnalysis.Proofs.Linear.Linearize
import ProgramAnalysis.Proofs.Numeric.Machine

/-! Which linear forms have the exact values of their terms. Operations that stay in a form are exact or
report an overflow, and operations on constants are exact where they have a result, but for one: a left
shift of constants drops the digits that leave the range. -/
namespace ProgramAnalysis

open Machine (bound128 fits)

/-- Exact integer operations. Division goes toward zero, digits are those of two's complement, and shifts
multiply and divide by powers of two. Nothing is said of divisors that are zero and of other shifts. -/
structure Operators.Exact (ops : Operators) : Prop where
  neg : ∀ x, ops.neg x = -x
  bitNot : ∀ x, ops.bitNot x = Int.lnot x
  add : ∀ x y, ops.binary .add x y = x + y
  sub : ∀ x y, ops.binary .sub x y = x - y
  mul : ∀ x y, ops.binary .mul x y = x * y
  div : ∀ x y, y ≠ 0 → ops.binary .div x y = x.tdiv y
  rem : ∀ x y, y ≠ 0 → ops.binary .rem x y = x.tmod y
  bitAnd : ∀ x y, ops.binary .bitAnd x y = Int.land x y
  bitOr : ∀ x y, ops.binary .bitOr x y = Int.lor x y
  bitXor : ∀ x y, ops.binary .bitXor x y = Int.xor x y
  shl : ∀ x y, 0 ≤ y → y ≤ 63 → ops.binary .shl x y = x * 2 ^ y.toNat
  shr : ∀ x y, 0 ≤ y → y ≤ 63 → ops.binary .shr x y = x.fdiv (2 ^ y.toNat)

def Operators.exact : Operators where
  neg x := -x
  bitNot := Int.lnot
  binary
    | .add, x, y => x + y
    | .sub, x, y => x - y
    | .mul, x, y => x * y
    | .div, x, y => x.tdiv y
    | .rem, x, y => x.tmod y
    | .bitAnd, x, y => Int.land x y
    | .bitOr, x, y => Int.lor x y
    | .bitXor, x, y => Int.xor x y
    | .shl, x, y => x * 2 ^ y.toNat
    | .shr, x, y => x.fdiv (2 ^ y.toNat)

theorem Operators.exact_exact : exact.Exact := by
  constructor <;> intros <;> rfl

variable {ops : Operators} {known known' : List Term} {e : LinearForm} {t : Term} {op : ArithOp}
  {x y c : Int}

theorem Operators.Exact.linear (exact : ops.Exact) : ops.Linear :=
  ⟨exact.neg, fun x => (exact.bitNot x).trans (Bitwise.not_eq_lnot x).symm, exact.add, exact.sub,
    exact.mul⟩

/-- What is computed of constants is exact, except for a left shift that leaves the range. -/
theorem Operators.Exact.of_compute? (exact : ops.Exact)
    (computed : Machine.compute? bound128 op x y = some c)
    (shift : op = .shl → 0 ≤ y → y ≤ 63 → fits bound128 (x * 2 ^ y.toNat) = true) :
    ops.binary op x y = c := by
  cases op with
  | add => exact (exact.add x y).trans (Machine.fits_of_checked computed).1.symm
  | sub => exact (exact.sub x y).trans (Machine.fits_of_checked computed).1.symm
  | mul => exact (exact.mul x y).trans (Machine.fits_of_checked computed).1.symm
  | div =>
    simp only [Machine.compute?] at computed
    split at computed
    · cases computed
    · rename_i nonzero
      exact (exact.div x y nonzero).trans (Machine.fits_of_checked computed).1.symm
  | rem =>
    simp only [Machine.compute?] at computed
    split at computed
    · cases computed
    · rename_i nonzero
      obtain ⟨q, -, rfl⟩ := Option.map_eq_some_iff.mp computed
      exact exact.rem x y nonzero
  | bitAnd =>
    cases computed
    rw [exact.bitAnd, Bitwise.and_eq_land]
  | bitOr =>
    cases computed
    rw [exact.bitOr, Bitwise.or_eq_lor]
  | bitXor =>
    cases computed
    rw [exact.bitXor, Bitwise.xor_eq_xor]
  | shl =>
    simp only [Machine.compute?] at computed
    split at computed
    · rename_i within
      cases computed
      have inside := shift rfl within.1 (by omega)
      rw [exact.shl x y within.1 (by omega), Int.shiftLeft_eq, Machine.bmod_of_fits inside]
    · cases computed
  | shr =>
    simp only [Machine.compute?] at computed
    split at computed
    · rename_i within
      cases computed
      rw [exact.shr x y within.1 (by omega), Int.shiftRight_eq_div_pow, Nat.cast_pow, Nat.cast_ofNat]
      exact Int.fdiv_eq_ediv_of_nonneg x (Int.pow_nonneg (by decide))
    · cases computed

namespace Term

/-- A left shift of constants stays in the range. -/
def ShiftFits (known : List Term) (t : Term) : Prop :=
  ∀ x y, t.OfConstants known .shl x y → 0 ≤ y → y ≤ 63 → fits bound128 (x * 2 ^ y.toNat) = true

/-- If the term has a form, the form has the value of the term. -/
def Preserved (ops : Operators) (known : List Term) (t : Term) : Prop :=
  ∀ e known', t.linearize.run known = .ok (e, known') → ∀ values,
    e.eval (opaqueValues ops values known') = t.eval ops values

theorem preserved_of_shiftFits (exact : ops.Exact) (fit : t.Along ShiftFits known) :
    t.Preserved ops known := by
  have folds : t.Along (Folds ops) known := fit.imp fun known t fit op x y c constants computed =>
    exact.of_compute? computed fun same => fit x y (same ▸ constants)
  intro e known' run
  exact (linearize_represents exact.linear folds run).eval known' (List.prefix_refl _)

theorem shiftFits_of_preserved (exact : ops.Exact) (preserved : t.Along (Preserved ops) known) :
    t.ShiftFits known := by
  rintro x y ⟨a, b, ea, known₁, eb, known₂, rfl, left, right, constantA, constantB⟩ low high
  obtain ⟨shift, preservedA, preservedB⟩ := preserved
  -- The values of variables do not matter here.
  have valueA := preservedA.here ea known₁ left 0
  have valueB := (preservedB ea known₁ left).here eb known₂ right 0
  rw [LinearForm.eval_of_const? constantA] at valueA
  rw [LinearForm.eval_of_const? constantB] at valueB
  have computed : Machine.compute? bound128 .shl x y =
      some ((x * 2 ^ y.toNat).bmod (2 * bound128.toNat)) := by
    rw [Machine.compute?, if_pos ⟨low, by omega⟩, Int.shiftLeft_eq]
  have value := shift _ _ (linearize_fold left right constantA constantB computed (by decide)) 0
  rw [LinearForm.eval_ofConst, eval, ← valueA, ← valueB, exact.shl x y low high] at value
  exact value ▸ Machine.fits_bmod (by decide) _

/-- The forms of a term and its subterms have their exact values just if no left shift of constants among
them leaves the 128-bit range, whatever opaque terms are known and whatever the operators make of
divisors that are zero and other shifts. Two variables never stand for the same term. -/
theorem linearize_preserves_iff (exact : ops.Exact) (t : Term) (known : List Term) :
    (t.Along (Preserved ops) known ↔ t.Along ShiftFits known) ∧
      (known.Nodup → ∀ e known', t.linearize.run known = .ok (e, known') → known'.Nodup) := by
  refine ⟨⟨fun preserved => ?_, fun fit => ?_⟩, fun distinct e known' run =>
    (linearize_grows run).2 distinct⟩
  · exact preserved.along.imp fun known t => shiftFits_of_preserved exact
  · exact fit.along.imp fun known t => preserved_of_shiftFits exact

def shiftTwice (n : Int) : Term := .binary .shl (.binary .shl (.const n) (.const 63)) (.const 63)

/-- The digits of `(1 << 63) << 63` stay in the range. -/
theorem linearize_preserves_shiftTwice : Operators.exact.Exact ∧
    (shiftTwice 1).linearize.run [] = .ok (.ofConst (2 ^ 126), []) ∧
    (shiftTwice 1).Preserved .exact [] := by
  have inner : (Term.binary .shl (.const 1) (.const 63)).linearize.run [] =
      .ok (.ofConst (2 ^ 63), []) := rfl
  have constant {known : List Term} {c : Int} : (Term.const c).Along ShiftFits known := by
    rintro x y ⟨a, b, ea, known₁, eb, known₂, ⟨⟩, -⟩
  have innerFits : ShiftFits [] (.binary .shl (.const 1) (.const 63)) := by
    rintro x y ⟨a, b, ea, known₁, eb, known₂, ⟨⟩, ⟨⟩, ⟨⟩, ⟨⟩, ⟨⟩⟩ - -
    decide
  have outerFits : ShiftFits [] (shiftTwice 1) := by
    rintro x y ⟨a, b, ea, known₁, eb, known₂, ⟨⟩, left, right, constantA, constantB⟩ - -
    cases inner.symm.trans left
    cases right
    cases constantA
    cases constantB
    decide
  refine ⟨Operators.exact_exact, rfl, ?_⟩
  exact ((linearize_preserves_iff Operators.exact_exact (shiftTwice 1) []).1.mpr
    ⟨outerFits, ⟨innerFits, constant, fun _ _ _ => constant⟩, fun _ _ _ => constant⟩).here

/-- The digit of `(4 << 63) << 63` leaves the range. The form is the constant 0. -/
theorem shiftTwice_not_preserved : Operators.exact.Exact ∧
    (shiftTwice 4).linearize.run [] = .ok (.ofConst 0, []) ∧
    (∀ values, (shiftTwice 4).eval .exact values = 2 ^ 128) ∧ ¬ (shiftTwice 4).Preserved .exact [] := by
  have value (values : TermVar → Int) : (shiftTwice 4).eval .exact values = 2 ^ 128 := by
    change (4 : Int) * 2 ^ 63 * 2 ^ 63 = 2 ^ 128
    ring
  refine ⟨Operators.exact_exact, rfl, value, fun preserved => ?_⟩
  have same := preserved (.ofConst 0) [] rfl 0
  rw [LinearForm.eval_ofConst, value] at same
  omega

end Term

end ProgramAnalysis
