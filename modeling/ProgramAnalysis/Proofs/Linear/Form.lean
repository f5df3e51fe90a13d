import Mathlib.Tactic.Ring
import Mathlib.Algebra.Ring.Int.Defs
import ProgramAnalysis.Linear.Form

/-! The value of a linear form. Every operation that has a result computes the form of the exact
result, and a form whose variables increase is the sum of one of its variables and the rest. -/
namespace ProgramAnalysis

namespace LinearForm

variable {values : Nat → Int} {a b e e' : LinearForm} {k c : Int} {x : Nat}

def sumOf (values : Nat → Int) : List (Nat × Int) → Int
  | [] => 0
  | (x, c) :: cs => c * values x + sumOf values cs

def eval (values : Nat → Int) (e : LinearForm) : Int := sumOf values e.coeffs + e.constant

/-- The coefficients are listed by increasing variable. -/
def Increasing (e : LinearForm) : Prop := e.coeffs.Pairwise fun p q => p.1 < q.1

/-- The constant is a 128-bit number. -/
def WideConstant (e : LinearForm) : Prop := Machine.fits Machine.bound128 e.constant = true

theorem of_wide? {i j : Int} (found : wide? i = some j) :
    j = i ∧ Machine.fits Machine.bound128 i = true := by
  simp only [wide?, Machine.checked] at found
  split at found
  · rename_i fits
    exact ⟨(Option.some.inj found).symm, fits⟩
  · cases found

/-! ### Sums -/

theorem sumOf_cons (values : Nat → Int) (p : Nat × Int) (cs : List (Nat × Int)) :
    sumOf values (p :: cs) = p.2 * values p.1 + sumOf values cs := rfl

theorem sumOf_nonzero (values : Nat → Int) (x : Nat) (c : Int) (cs : List (Nat × Int)) :
    sumOf values (if c = 0 then cs else (x, c) :: cs) = c * values x + sumOf values cs := by
  split
  · rename_i zero
    rw [zero, Int.zero_mul, Int.zero_add]
  · rfl

theorem forall_mem_nonzero {good : Nat × Int → Prop} {cs : List (Nat × Int)}
    (rest : ∀ p ∈ cs, good p) (here : c ≠ 0 → good (x, c)) :
    ∀ p ∈ if c = 0 then cs else (x, c) :: cs, good p := by
  split
  · exact rest
  · rename_i nonzero
    exact List.forall_mem_cons.mpr ⟨here nonzero, rest⟩

theorem pairwise_nonzero {x : Nat} {c : Int} {cs : List (Nat × Int)}
    (first : ∀ p ∈ cs, x < p.1) (increasing : cs.Pairwise fun p q => p.1 < q.1) :
    (if c = 0 then cs else (x, c) :: cs).Pairwise fun p q => p.1 < q.1 := by
  split
  · exact increasing
  · exact List.pairwise_cons.mpr ⟨first, increasing⟩

/-- Lists of coefficients are added in the order of their variables. A sum that is zero is left out. -/
inductive AddsCoeffs (k : Int) : List (Nat × Int) → List (Nat × Int) → List (Nat × Int) → Prop where
  | done {cs : List (Nat × Int)} : AddsCoeffs k cs [] cs
  | left {x y : Nat} {c d : Int} {cs ds es : List (Nat × Int)} : x < y →
    AddsCoeffs k cs ((y, d) :: ds) es → AddsCoeffs k ((x, c) :: cs) ((y, d) :: ds) ((x, c) :: es)
  | right {y : Nat} {d : Int} {cs ds es : List (Nat × Int)} : (∀ p ∈ cs.head?, y < p.1) →
    AddsCoeffs k cs ds es →
    AddsCoeffs k cs ((y, d) :: ds) (if d * k = 0 then es else (y, d * k) :: es)
  | both {x : Nat} {c d : Int} {cs ds es : List (Nat × Int)} : AddsCoeffs k cs ds es →
    AddsCoeffs k ((x, c) :: cs) ((x, d) :: ds)
      (if c + d * k = 0 then es else (x, c + d * k) :: es)

theorem adds_of_addCoeffs? {cs ds es : List (Nat × Int)} (added : addCoeffs? k cs ds = some es) :
    AddsCoeffs k cs ds es := by
  fun_induction addCoeffs? k cs ds generalizing es with
  | case1 cs =>
    cases added
    exact .done
  | case2 y d ds ih =>
    simp only [Option.bind_eq_bind, Option.bind_eq_some_iff, Option.pure_def,
      Option.some.injEq] at added
    obtain ⟨w, wide, rest, hrest, rfl⟩ := added
    obtain ⟨rfl, -⟩ := of_wide? wide
    exact .right nofun (ih hrest)
  | case3 x c cs y d ds lt ih =>
    simp only [Option.bind_eq_bind, Option.bind_eq_some_iff, Option.pure_def,
      Option.some.injEq] at added
    obtain ⟨rest, hrest, rfl⟩ := added
    exact .left lt (ih hrest)
  | case4 x c cs y d ds notLt before after =>
    simp only [Option.bind_eq_bind, Option.bind_eq_some_iff] at added
    obtain ⟨w, wide, added⟩ := added
    obtain ⟨rfl, -⟩ := of_wide? wide
    split at added
    · rename_i gt
      simp only [Option.bind_eq_some_iff, Option.pure_def, Option.some.injEq] at added
      obtain ⟨rest, hrest, rfl⟩ := added
      exact .right (by simpa using gt) (before hrest)
    · rename_i notGt
      obtain rfl : x = y := by omega
      simp only [Option.bind_eq_some_iff, Option.pure_def, Option.some.injEq] at added
      obtain ⟨s, sum, rest, hrest, rfl⟩ := added
      obtain ⟨rfl, -⟩ := of_wide? sum
      exact .both (after hrest)

namespace AddsCoeffs

variable {cs ds es : List (Nat × Int)}

theorem sumOf (adds : AddsCoeffs k cs ds es) (values : Nat → Int) :
    sumOf values es = LinearForm.sumOf values cs + k * LinearForm.sumOf values ds := by
  induction adds with
  | done => simp [LinearForm.sumOf]
  | left _ _ ih =>
    rw [sumOf_cons, ih]
    simp only [LinearForm.sumOf]
    ring
  | right _ _ ih =>
    rw [sumOf_nonzero, ih]
    simp only [LinearForm.sumOf]
    ring
  | both _ ih =>
    rw [sumOf_nonzero, ih]
    simp only [LinearForm.sumOf]
    ring

/-- Every variable of the sum is one of the parts. -/
theorem lt_of_mem (adds : AddsCoeffs k cs ds es) {b : Nat} (left : ∀ p ∈ cs, b < p.1)
    (right : ∀ p ∈ ds, b < p.1) : ∀ p ∈ es, b < p.1 := by
  induction adds with
  | done => exact left
  | left _ _ ih =>
    obtain ⟨here, left⟩ := List.forall_mem_cons.mp left
    exact List.forall_mem_cons.mpr ⟨here, ih left right⟩
  | right _ _ ih =>
    obtain ⟨here, right⟩ := List.forall_mem_cons.mp right
    exact forall_mem_nonzero (ih left right) fun _ => here
  | both _ ih =>
    obtain ⟨here, left⟩ := List.forall_mem_cons.mp left
    exact forall_mem_nonzero (ih left (List.forall_mem_cons.mp right).2) fun _ => here

theorem increasing (adds : AddsCoeffs k cs ds es) (left : cs.Pairwise fun p q => p.1 < q.1)
    (right : ds.Pairwise fun p q => p.1 < q.1) : es.Pairwise fun p q => p.1 < q.1 := by
  induction adds with
  | done => exact left
  | @left x y _ d _ ds _ lt rest ih =>
    obtain ⟨first, left⟩ := List.pairwise_cons.mp left
    have below : ∀ p ∈ (y, d) :: ds, x < p.1 :=
      List.forall_mem_cons.mpr ⟨lt, fun p mem => lt.trans ((List.pairwise_cons.mp right).1 p mem)⟩
    exact List.pairwise_cons.mpr ⟨rest.lt_of_mem first below, ih left right⟩
  | @right y _ cs _ _ before rest ih =>
    obtain ⟨first, right⟩ := List.pairwise_cons.mp right
    have below : ∀ p ∈ cs, y < p.1 := by
      cases left with
      | nil => nofun
      | cons others _ =>
        have gt := before _ rfl
        exact List.forall_mem_cons.mpr ⟨gt, fun p mem => gt.trans (others p mem)⟩
    exact pairwise_nonzero (rest.lt_of_mem below first) (ih left right)
  | both rest ih =>
    obtain ⟨first, left⟩ := List.pairwise_cons.mp left
    obtain ⟨first', right⟩ := List.pairwise_cons.mp right
    exact pairwise_nonzero (rest.lt_of_mem first first') (ih left right)

end AddsCoeffs

@[simp] theorem eval_ofConst (values : Nat → Int) (c : Int) : (ofConst c).eval values = c := by
  simp [eval, ofConst, sumOf]

@[simp] theorem eval_ofVar (values : Nat → Int) (x : Nat) :
    (ofVar x).eval values = values x := by
  simp [eval, ofVar, sumOf]

theorem increasing_ofConst (c : Int) : (ofConst c).Increasing := List.Pairwise.nil

theorem increasing_ofVar (x : Nat) : (ofVar x).Increasing := List.pairwise_singleton _ _

theorem of_addScaled? (added : a.addScaled? b k = some e) :
    (∀ values, e.eval values = a.eval values + k * b.eval values) ∧ e.WideConstant := by
  unfold addScaled? at added
  simp only [Option.bind_eq_bind, Option.bind_eq_some_iff, Option.pure_def,
    Option.some.injEq] at added
  obtain ⟨cs, hcs, s, scaled, t, total, rfl⟩ := added
  obtain ⟨rfl, -⟩ := of_wide? scaled
  obtain ⟨rfl, wide⟩ := of_wide? total
  refine ⟨fun values => ?_, wide⟩
  simp only [eval, (adds_of_addCoeffs? hcs).sumOf]
  ring

theorem Increasing.addScaled? (left : a.Increasing) (right : b.Increasing)
    (added : a.addScaled? b k = some e) : e.Increasing := by
  unfold LinearForm.addScaled? at added
  simp only [Option.bind_eq_bind, Option.bind_eq_some_iff, Option.pure_def,
    Option.some.injEq] at added
  obtain ⟨cs, hcs, s, -, t, -, rfl⟩ := added
  exact (adds_of_addCoeffs? hcs).increasing left right

theorem eval_scale? (scaled : a.scale? k = some e) (values : Nat → Int) :
    e.eval values = k * a.eval values := by
  rw [(of_addScaled? scaled).1, eval_ofConst, Int.zero_add]

theorem Increasing.scale? (increasing : a.Increasing) (scaled : a.scale? k = some e) :
    e.Increasing :=
  (increasing_ofConst 0).addScaled? increasing scaled

theorem of_addConst? (added : a.addConst? c = some e) :
    (∀ values, e.eval values = a.eval values + c) ∧ e.WideConstant := by
  unfold addConst? at added
  simp only [Option.bind_eq_bind, Option.bind_eq_some_iff, Option.pure_def,
    Option.some.injEq] at added
  obtain ⟨t, total, rfl⟩ := added
  obtain ⟨rfl, wide⟩ := of_wide? total
  refine ⟨fun values => ?_, wide⟩
  simp only [eval]
  ring

theorem Increasing.addConst? (increasing : a.Increasing) (added : a.addConst? c = some e) :
    e.Increasing := by
  unfold LinearForm.addConst? at added
  simp only [Option.bind_eq_bind, Option.bind_eq_some_iff, Option.pure_def,
    Option.some.injEq] at added
  obtain ⟨t, -, rfl⟩ := added
  exact increasing

theorem wide?_of_fits {i : Int} (inside : Machine.fits Machine.bound128 i = true) :
    wide? i = some i := if_pos inside

theorem addScaled?_ofConst {c d : Int} (scaled : Machine.fits Machine.bound128 (d * k) = true)
    (total : Machine.fits Machine.bound128 (c + d * k) = true) :
    (ofConst c).addScaled? (ofConst d) k = some (ofConst (c + d * k)) := by
  simp [LinearForm.addScaled?, ofConst, addCoeffs?, wide?_of_fits scaled, wide?_of_fits total]

theorem scale?_ofConst (scaled : Machine.fits Machine.bound128 (c * k) = true) :
    (ofConst c).scale? k = some (ofConst (c * k)) := by
  rw [LinearForm.scale?, addScaled?_ofConst scaled (by rwa [Int.zero_add]), Int.zero_add]

theorem addConst?_ofConst {d : Int} (total : Machine.fits Machine.bound128 (c + d) = true) :
    (ofConst c).addConst? d = some (ofConst (c + d)) := by
  simp [LinearForm.addConst?, ofConst, wide?_of_fits total]

theorem eval_of_const? (found : e.const? = some c) (values : Nat → Int) : e.eval values = c := by
  unfold const? at found
  split at found
  · rename_i empty
    rw [List.isEmpty_iff] at empty
    simp only [Option.some.injEq] at found
    rw [eval, empty, sumOf, Int.zero_add, found]
  · cases found

theorem eq_of_const? (found : e.const? = some c) : c = e.constant := by
  unfold const? at found
  split at found
  · exact (Option.some.inj found).symm
  · cases found

/-! ### Substitution -/

theorem sumOf_filter {cs : List (Nat × Int)} (increasing : cs.Pairwise fun p q => p.1 < q.1)
    (values : Nat → Int) (x : Nat) :
    sumOf values cs =
      (cs.lookup x).getD 0 * values x + sumOf values (cs.filter fun (y, _) => y ≠ x) := by
  induction cs with
  | nil => simp [sumOf]
  | cons p cs ih =>
    obtain ⟨y, c⟩ := p
    obtain ⟨first, rest⟩ := List.pairwise_cons.mp increasing
    rw [List.lookup_cons, List.filter_cons]
    by_cases here : x = y
    · subst here
      have others : cs.filter (fun (y, _) => y ≠ x) = cs :=
        List.filter_eq_self.mpr fun q mem => by simpa using (first q mem).ne'
      rw [others]
      simp [sumOf]
    · have elsewhere : y ≠ x := fun eq => here eq.symm
      simp only [sumOf, beq_eq_false_iff_ne.mpr here, ih rest, ne_eq, elsewhere, not_false_eq_true,
        decide_true, if_true]
      ring

theorem eval_erase (increasing : e.Increasing) (values : Nat → Int) (x : Nat) :
    e.eval values = e.coeff x * values x + (e.erase x).eval values := by
  simp only [eval, coeff, erase]
  rw [sumOf_filter increasing values x]
  ring

theorem Increasing.erase (increasing : e.Increasing) (x : Nat) : (e.erase x).Increasing :=
  List.Pairwise.filter _ increasing

theorem eval_substitute? (increasing : e.Increasing) (substituted : substitute? x a e = some e')
    (values : Nat → Int) (solved : values x = a.eval values) : e'.eval values = e.eval values := by
  unfold substitute? at substituted
  split at substituted
  · cases substituted
    rfl
  · rw [(of_addScaled? substituted).1, eval_erase increasing values x, solved]
    ring

theorem Increasing.substitute? (increasing : e.Increasing) (replacement : a.Increasing)
    (substituted : LinearForm.substitute? x a e = some e') : e'.Increasing := by
  unfold LinearForm.substitute? at substituted
  split at substituted
  · cases substituted
    exact increasing
  · exact (increasing.erase x).addScaled? replacement substituted

theorem mem_of_unit? (found : e.unit? = some (x, c)) : (x, c) ∈ e.coeffs ∧ (c = 1 ∨ c = -1) := by
  unfold unit? at found
  exact ⟨List.mem_of_find?_eq_some found, by simpa using List.find?_some found⟩

theorem coeff_of_mem (increasing : e.Increasing) (mem : (x, c) ∈ e.coeffs) : e.coeff x = c := by
  obtain ⟨cs, k⟩ := e
  simp only [coeff, Increasing] at *
  induction cs with
  | nil => cases mem
  | cons p cs ih =>
    obtain ⟨y, d⟩ := p
    obtain ⟨first, rest⟩ := List.pairwise_cons.mp increasing
    rcases List.mem_cons.mp mem with here | mem
    · cases here
      simp
    · have elsewhere : x ≠ y := (first _ mem).ne'
      rw [List.lookup_cons, beq_eq_false_iff_ne.mpr elsewhere]
      exact ih rest mem

/-! ### Order and divisors -/

theorem mem_dedup {es : List LinearForm} : e ∈ dedup es ↔ e ∈ es := by
  induction es with
  | nil => simp [dedup]
  | cons d es ih =>
    unfold dedup
    split
    · rename_i again
      rw [ih, List.mem_cons]
      refine ⟨.inr, ?_⟩
      rintro (rfl | mem)
      · exact List.mem_of_mem_head? again
      · exact mem
    · rw [List.mem_cons, List.mem_cons, ih]

@[simp] theorem mem_sorted {es : List LinearForm} : e ∈ sorted es ↔ e ∈ es := by
  rw [sorted, mem_dedup, List.mem_mergeSort]

theorem foldl_gcd_dvd {cs : List (Nat × Int)} {g : Nat} :
    cs.foldl (fun g (p : Nat × Int) => Nat.gcd g p.2.natAbs) g ∣ g ∧
      ∀ p ∈ cs, cs.foldl (fun g (p : Nat × Int) => Nat.gcd g p.2.natAbs) g ∣ p.2.natAbs := by
  induction cs generalizing g with
  | nil => simp
  | cons p cs ih =>
    obtain ⟨start, rest⟩ := ih (g := Nat.gcd g p.2.natAbs)
    refine ⟨start.trans (Nat.gcd_dvd_left _ _), List.forall_mem_cons.mpr ⟨?_, rest⟩⟩
    exact start.trans (Nat.gcd_dvd_right _ _)

theorem gcd_of_nil (empty : e.coeffs = []) : e.gcd = .ok 0 := by simp [gcd, empty]

theorem dvd_of_gcd {g : Nat} (divisor : e.gcd = .ok g) : ∀ p ∈ e.coeffs, (g : Int) ∣ p.2 := by
  unfold gcd at divisor
  split at divisor
  · cases divisor
  · cases divisor
    intro p mem
    exact Int.natCast_dvd.mpr (foldl_gcd_dvd.2 p mem)

theorem dvd_sumOf {g : Int} {cs : List (Nat × Int)} (divides : ∀ p ∈ cs, g ∣ p.2)
    (values : Nat → Int) : g ∣ sumOf values cs := by
  induction cs with
  | nil => exact dvd_zero g
  | cons p cs ih =>
    obtain ⟨here, rest⟩ := List.forall_mem_cons.mp divides
    exact Int.dvd_add (here.mul_right _) (ih rest)

theorem sumOf_map_div {g : Int} {cs : List (Nat × Int)} (divides : ∀ p ∈ cs, g ∣ p.2)
    (values : Nat → Int) :
    g * sumOf values (cs.map fun (x, c) => (x, c / g)) = sumOf values cs := by
  induction cs with
  | nil => simp [sumOf]
  | cons p cs ih =>
    obtain ⟨here, rest⟩ := List.forall_mem_cons.mp divides
    rw [List.map_cons, sumOf_cons, sumOf_cons, Int.mul_add, ih rest, ← Int.mul_assoc,
      Int.mul_ediv_cancel' here]

end LinearForm

end ProgramAnalysis
