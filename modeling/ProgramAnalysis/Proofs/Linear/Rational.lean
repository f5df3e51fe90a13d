import Mathlib.Algebra.Order.Field.Rat
import Mathlib.LinearAlgebra.Finsupp.LinearCombination
import Mathlib.Tactic.Linarith
import Mathlib.Tactic.MkIffOfInductiveProp
import ProgramAnalysis.Proofs.Linear.Form

/-! The value of a linear form over the rational numbers. What the operations on forms compute is known
over the integers. There it fixes every coefficient, so the same equations hold over the rationals. -/
namespace ProgramAnalysis

namespace LinearForm

variable {a b e e' : LinearForm} {k c : Int} {x : Nat}

/-! ### Forms without zero coefficients -/

/-- The variables increase and no coefficient is zero, so a form has one list of coefficients only. -/
@[mk_iff]
structure Reduced (e : LinearForm) : Prop where
  increasing : e.Increasing
  nonzero : ∀ p ∈ e.coeffs, p.2 ≠ 0

instance (e : LinearForm) : Decidable e.Increasing :=
  inferInstanceAs (Decidable (e.coeffs.Pairwise fun p q => p.1 < q.1))

instance (e : LinearForm) : Decidable e.Reduced := decidable_of_iff _ (reduced_iff e).symm

theorem AddsCoeffs.nonzero {cs ds es : List (Nat × Int)} (adds : AddsCoeffs k cs ds es)
    (left : ∀ p ∈ cs, p.2 ≠ 0) : ∀ p ∈ es, p.2 ≠ 0 := by
  induction adds with
  | done => exact left
  | left _ _ ih =>
    obtain ⟨here, left⟩ := List.forall_mem_cons.mp left
    exact List.forall_mem_cons.mpr ⟨here, ih left⟩
  | right _ _ ih => exact forall_mem_nonzero (ih left) id
  | both _ ih => exact forall_mem_nonzero (ih (List.forall_mem_cons.mp left).2) id

theorem reduced_ofConst (c : Int) : (ofConst c).Reduced :=
  ⟨increasing_ofConst c, by simp [ofConst]⟩

theorem reduced_ofVar (x : Nat) : (ofVar x).Reduced := ⟨increasing_ofVar x, by simp [ofVar]⟩

namespace Reduced

theorem addScaled? (left : a.Reduced) (right : b.Reduced) (added : a.addScaled? b k = some e) :
    e.Reduced := by
  refine ⟨left.increasing.addScaled? right.increasing added, ?_⟩
  unfold LinearForm.addScaled? at added
  simp only [Option.bind_eq_bind, Option.bind_eq_some_iff, Option.pure_def,
    Option.some.injEq] at added
  obtain ⟨cs, hcs, s, -, t, -, rfl⟩ := added
  exact (adds_of_addCoeffs? hcs).nonzero left.nonzero

theorem scale? (reduced : a.Reduced) (scaled : a.scale? k = some e) : e.Reduced :=
  (reduced_ofConst 0).addScaled? reduced scaled

theorem addConst? (reduced : a.Reduced) (added : a.addConst? c = some e) : e.Reduced := by
  refine ⟨reduced.increasing.addConst? added, ?_⟩
  unfold LinearForm.addConst? at added
  simp only [Option.bind_eq_bind, Option.bind_eq_some_iff, Option.pure_def,
    Option.some.injEq] at added
  obtain ⟨t, -, rfl⟩ := added
  exact reduced.nonzero

theorem erase (reduced : e.Reduced) (x : Nat) : (e.erase x).Reduced :=
  ⟨reduced.increasing.erase x, fun p mem => reduced.nonzero p (List.mem_of_mem_filter mem)⟩

theorem substitute? (reduced : e.Reduced) (replacement : a.Reduced)
    (substituted : LinearForm.substitute? x a e = some e') : e'.Reduced := by
  unfold LinearForm.substitute? at substituted
  split at substituted
  · cases substituted
    exact reduced
  · exact (reduced.erase x).addScaled? replacement substituted

theorem exists_coeff_ne_zero (reduced : e.Reduced) (listed : e.coeffs ≠ []) :
    ∃ x, e.coeff x ≠ 0 := by
  obtain ⟨⟨x, c⟩, mem⟩ := List.exists_mem_of_ne_nil _ listed
  exact ⟨x, coeff_of_mem reduced.increasing mem ▸ reduced.nonzero _ mem⟩

end Reduced

theorem eq_nil_of_gcd (reduced : e.Reduced) (divisor : e.gcd = .ok 0) : e.coeffs = [] := by
  refine List.eq_nil_iff_forall_not_mem.mpr fun p mem => reduced.nonzero p mem ?_
  exact Int.zero_dvd.mp (dvd_of_gcd divisor p mem)

theorem mem_of_coeff_ne_zero (here : e.coeff x ≠ 0) : x ∈ e.coeffs.map (·.1) := by
  contrapose! here
  have absent : e.coeffs.lookup x = none := List.lookup_eq_none_iff.mpr fun p mem => by
    have := fun same : x = p.1 => here (List.mem_map.mpr ⟨p, mem, same.symm⟩)
    simpa using this
  rw [coeff, absent, Option.getD_none]

/-! ### Coefficients as a vector -/

/-- The coefficients of all variables. -/
noncomputable def vector (e : LinearForm) : Nat →₀ Int :=
  (e.coeffs.map fun p => Finsupp.single p.1 p.2).sum

def evalRat (values : Nat → ℚ) (e : LinearForm) : ℚ :=
  (e.coeffs.map fun p => (p.2 : ℚ) * values p.1).sum + e.constant

theorem eval_eq (values : Nat → Int) (e : LinearForm) :
    e.eval values = Finsupp.linearCombination ℤ values e.vector + e.constant := by
  obtain ⟨cs, k⟩ := e
  refine congrArg (· + k) ?_
  simp only [vector, map_list_sum, List.map_map]
  induction cs with
  | nil => rfl
  | cons p cs ih => rw [sumOf_cons, ih, List.map_cons, List.sum_cons]; simp

theorem evalRat_eq (values : Nat → ℚ) (e : LinearForm) :
    e.evalRat values = Finsupp.linearCombination ℤ values e.vector + e.constant := by
  simp only [evalRat, vector, map_list_sum, List.map_map]
  congr 3
  funext p
  simp

/-- The values over the integers determine the coefficients. -/
theorem vector_of_eval (same : ∀ values, e.eval values = a.eval values + k * b.eval values) :
    e.vector = a.vector + k • b.vector ∧ e.constant = a.constant + k * b.constant := by
  simp only [eval_eq] at same
  have constant : e.constant = a.constant + k * b.constant := by
    simpa using same 0
  refine ⟨Finsupp.ext fun x => ?_, constant⟩
  have here := same (Pi.single x 1)
  simp only [Finsupp.linearCombination_single_index, smul_eq_mul, mul_one, constant] at here
  simp only [Finsupp.add_apply, Finsupp.smul_apply, smul_eq_mul]
  linarith

theorem evalRat_of_eval (same : ∀ values, e.eval values = a.eval values + k * b.eval values)
    (values : Nat → ℚ) : e.evalRat values = a.evalRat values + k * b.evalRat values := by
  obtain ⟨vector, constant⟩ := vector_of_eval same
  simp only [evalRat_eq, vector, constant, map_add, map_zsmul, zsmul_eq_mul]
  push_cast
  ring

theorem vector_apply (increasing : e.Increasing) (x : Nat) : e.vector x = e.coeff x := by
  have elsewhere {cs : List (Nat × Int)} (other : ∀ p ∈ cs, p.1 ≠ x) :
      sumOf (Pi.single x 1) cs = 0 := by
    induction cs with
    | nil => rfl
    | cons p cs ih =>
      obtain ⟨here, rest⟩ := List.forall_mem_cons.mp other
      rw [sumOf_cons, ih rest, Pi.single_eq_of_ne here, Int.mul_zero, Int.add_zero]
  have split := eval_erase increasing (Pi.single x 1) x
  rw [eval_eq, Finsupp.linearCombination_single_index, Pi.single_eq_same, eval,
    elsewhere fun p mem => by simpa using (List.mem_filter.mp mem).2] at split
  simpa [erase] using split

theorem coeff_of_eval (increasing : e.Increasing) (left : a.Increasing) (right : b.Increasing)
    (same : ∀ values, e.eval values = a.eval values + k * b.eval values) (x : Nat) :
    e.coeff x = a.coeff x + k * b.coeff x := by
  rw [← vector_apply increasing, (vector_of_eval same).1, Finsupp.add_apply, Finsupp.smul_apply,
    vector_apply left, vector_apply right, smul_eq_mul]

theorem coeff_addScaled? (left : a.Increasing) (right : b.Increasing)
    (added : a.addScaled? b k = some e) (x : Nat) : e.coeff x = a.coeff x + k * b.coeff x :=
  coeff_of_eval (left.addScaled? right added) left right (of_addScaled? added).1 x

@[simp] theorem coeff_ofConst (c : Int) (x : Nat) : (ofConst c).coeff x = 0 := rfl

theorem coeff_scale? (increasing : a.Increasing) (scaled : a.scale? k = some e) (x : Nat) :
    e.coeff x = k * a.coeff x := by
  rw [coeff_addScaled? (increasing_ofConst 0) increasing scaled, coeff_ofConst, Int.zero_add]

/-! ### Values over the rational numbers -/

@[simp] theorem evalRat_ofConst (values : Nat → ℚ) (c : Int) : (ofConst c).evalRat values = c := by
  simp [evalRat, ofConst]

@[simp] theorem evalRat_ofVar (values : Nat → ℚ) (x : Nat) :
    (ofVar x).evalRat values = values x := by
  simp [evalRat, ofVar]

theorem evalRat_of_gcd (reduced : e.Reduced) (divisor : e.gcd = .ok 0) (values : Nat → ℚ) :
    e.evalRat values = e.constant := by
  rw [evalRat, eq_nil_of_gcd reduced divisor, List.map_nil, List.sum_nil, zero_add]

theorem evalRat_addScaled? (added : a.addScaled? b k = some e) (values : Nat → ℚ) :
    e.evalRat values = a.evalRat values + k * b.evalRat values :=
  evalRat_of_eval (of_addScaled? added).1 values

theorem evalRat_scale? (scaled : a.scale? k = some e) (values : Nat → ℚ) :
    e.evalRat values = k * a.evalRat values := by
  rw [evalRat_addScaled? scaled, evalRat_ofConst, Int.cast_zero, zero_add]

theorem evalRat_addConst? (added : a.addConst? c = some e) (values : Nat → ℚ) :
    e.evalRat values = a.evalRat values + c := by
  have same (values : Nat → Int) : e.eval values = a.eval values + 1 * (ofConst c).eval values := by
    rw [(of_addConst? added).1, eval_ofConst, Int.one_mul]
  rw [evalRat_of_eval same, evalRat_ofConst, Int.cast_one, one_mul]

theorem evalRat_erase (increasing : e.Increasing) (values : Nat → ℚ) (x : Nat) :
    e.evalRat values = e.coeff x * values x + (e.erase x).evalRat values := by
  have same (values : Nat → Int) :
      e.eval values = (e.erase x).eval values + e.coeff x * (ofVar x).eval values := by
    rw [eval_erase increasing values x, eval_ofVar, Int.add_comm]
  rw [evalRat_of_eval same, evalRat_ofVar, add_comm]

theorem evalRat_update (increasing : e.Increasing) (values : Nat → ℚ) (x : Nat) (r : ℚ) :
    e.evalRat (Function.update values x r) = e.coeff x * r + (e.erase x).evalRat values := by
  have others : (e.erase x).evalRat (Function.update values x r) = (e.erase x).evalRat values := by
    refine congrArg (· + _) (congrArg List.sum (List.map_congr_left fun p mem => ?_))
    have other : p.1 ≠ x := by simpa using (List.mem_filter.mp mem).2
    rw [Function.update_of_ne other]
  rw [evalRat_erase increasing _ x, others, Function.update_self]

/-- What is inserted for a variable may as well be its value. -/
theorem evalRat_substitute? (increasing : e.Increasing) (substituted : substitute? x a e = some e')
    (values : Nat → ℚ) :
    e'.evalRat values = e.evalRat (Function.update values x (a.evalRat values)) := by
  rw [evalRat_update increasing]
  unfold substitute? at substituted
  split at substituted
  · rename_i zero
    cases substituted
    rw [evalRat_erase increasing values x, zero, Int.cast_zero, zero_mul, zero_mul]
  · rw [evalRat_addScaled? substituted, add_comm]

end LinearForm

end ProgramAnalysis
