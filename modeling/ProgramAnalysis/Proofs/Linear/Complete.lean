import Mathlib
import ProgramAnalysis.Proofs.Linear.Elimination
import ProgramAnalysis.Proofs.Linear.Rational

/-! Constraints that are found consistent have a rational solution. Every step of the elimination gives
back a solution of the constraints that it works on from a solution of the constraints that it leaves:
the variable that an equation is solved for takes its value from the equation, and a variable that drops
out of inequalities takes a value between its bounds. -/
namespace ProgramAnalysis

open Outcome (Yields)

namespace Elimination

variable {values : Nat → ℚ} {limits : SolverLimits} {e e' upper lower : LinearForm}
  {es es' eqs les nes : List LinearForm} {x : Nat}

def AtMostZeroRat (values : Nat → ℚ) (es : List LinearForm) : Prop := ∀ e ∈ es, e.evalRat values ≤ 0

def ZeroRat (values : Nat → ℚ) (es : List LinearForm) : Prop := ∀ e ∈ es, e.evalRat values = 0

def Reduced (es : List LinearForm) : Prop := ∀ e ∈ es, e.Reduced

/-! ### Tightening -/

/-- A tightened inequality is a positive multiple of the new one, and lower. -/
theorem tighten?_multiple (tightened : tighten? e = .ok (some e')) : ∃ g c : Int, 0 < g ∧ c ≤ 0 ∧
    ∀ values, e.eval values = (LinearForm.ofConst c).eval values + g * e'.eval values := by
  obtain ⟨g, divisor, ⟨-, same⟩ | ⟨-, same⟩ | ⟨large, same⟩⟩ := tighten?_cases tightened
  · split at same
    · cases same
      exact ⟨1, 0, by decide, le_rfl, by simp⟩
    · cases same
  · cases same
    exact ⟨1, 0, by decide, le_rfl, by simp⟩
  · cases same
    have positive : (0 : Int) < g := by omega
    refine ⟨g, e.constant - g * -(-e.constant / g), positive, ?_, fun values => ?_⟩
    · have := Int.mul_ediv_self_le (x := -e.constant) positive.ne'
      rw [Int.mul_neg]
      omega
    · have sum := LinearForm.sumOf_map_div (LinearForm.dvd_of_gcd divisor) values
      rw [LinearForm.eval_ofConst]
      simp only [LinearForm.eval, Int.mul_add, sum]
      omega

theorem evalRat_of_tighten? {answer : Option LinearForm} (reduced : e.Reduced)
    (tightened : tighten? e = .ok answer) (le : ∀ e', answer = some e' → e'.evalRat values ≤ 0) :
    e.evalRat values ≤ 0 := by
  cases answer with
  | some e' =>
    obtain ⟨g, c, positive, small, same⟩ := tighten?_multiple tightened
    rw [LinearForm.evalRat_of_eval same, LinearForm.evalRat_ofConst]
    have : (g : ℚ) * e'.evalRat values ≤ 0 :=
      mul_nonpos_of_nonneg_of_nonpos (by exact_mod_cast positive.le) (le e' rfl)
    have : (c : ℚ) ≤ 0 := by exact_mod_cast small
    linarith
  | none =>
    obtain ⟨g, divisor, ⟨zero, same⟩ | ⟨-, same⟩ | ⟨-, same⟩⟩ := tighten?_cases tightened
    · split at same
      · cases same
      · rename_i small
        rw [LinearForm.evalRat_of_gcd reduced (zero ▸ divisor)]
        exact_mod_cast not_lt.mp small
    · cases same
    · cases same

theorem reduced_tighten? (reduced : e.Reduced) (tightened : tighten? e = .ok (some e')) :
    e'.Reduced := by
  obtain ⟨g, divisor, ⟨-, same⟩ | ⟨-, same⟩ | ⟨large, same⟩⟩ := tighten?_cases tightened
  · split at same
    · cases same
      exact reduced
    · cases same
  · cases same
    exact reduced
  · cases same
    refine ⟨List.pairwise_map.mpr reduced.increasing, ?_⟩
    intro p mem zero
    obtain ⟨⟨x, c⟩, old, rfl⟩ := List.mem_map.mp mem
    have divides := LinearForm.dvd_of_gcd divisor _ old
    exact reduced.nonzero _ old (Int.eq_zero_of_ediv_eq_zero divides zero)

theorem coeff_tighten? (reduced : e.Reduced) (tightened : tighten? e = .ok (some e')) :
    e'.coeff x ≠ 0 → e.coeff x ≠ 0 := by
  intro here
  obtain ⟨g, c, positive, -, same⟩ := tighten?_multiple tightened
  rw [LinearForm.coeff_of_eval reduced.increasing (LinearForm.increasing_ofConst c)
    (reduced_tighten? reduced tightened).increasing same]
  simpa [LinearForm.coeff, LinearForm.ofConst, positive.ne'] using here

/-- Inequalities that the elimination works on have variables, and all of them are listed. -/
structure Over (xs : List Nat) (e : LinearForm) : Prop where
  reduced : e.Reduced
  listed : e.coeffs ≠ []
  mem : ∀ y, e.coeff y ≠ 0 → y ∈ xs

theorem tightenAll_complete (reduced : Reduced es) (tightened : tightenAll es = .ok (some es')) :
    (∀ e ∈ es', e.Reduced ∧ e.coeffs ≠ []) ∧
      ∀ values, AtMostZeroRat values es' → AtMostZeroRat values es := by
  induction es generalizing es' with
  | nil =>
    cases tightened
    exact ⟨List.forall_mem_nil _, fun _ _ => List.forall_mem_nil _⟩
  | cons e es ih =>
    obtain ⟨here, rest⟩ := List.forall_mem_cons.mp reduced
    obtain ⟨tight, found⟩ | ⟨e', tight, ⟨-, none⟩ | ⟨listed, others, found, same⟩⟩ :=
      of_tightenAll_cons tightened
    · obtain ⟨proper, back⟩ := ih rest found
      refine ⟨proper, fun values le => List.forall_mem_cons.mpr ⟨?_, back values le⟩⟩
      exact evalRat_of_tighten? here tight (by simp)
    · cases none
    · obtain ⟨es'', rfl, rfl⟩ := Option.map_eq_some_iff.mp same.symm
      obtain ⟨proper, back⟩ := ih rest found
      refine ⟨List.forall_mem_cons.mpr ⟨⟨reduced_tighten? here tight, listed⟩, proper⟩, ?_⟩
      intro values le
      obtain ⟨first, others⟩ := List.forall_mem_cons.mp le
      refine List.forall_mem_cons.mpr ⟨?_, back values others⟩
      exact evalRat_of_tighten? here tight (by simpa using first)

/-! ### Variables of inequalities -/

theorem Over.erase {xs : List Nat} (covered : Over xs e) (absent : e.coeff x = 0) :
    Over (xs.erase x) e := by
  refine ⟨covered.reduced, covered.listed, fun y here => ?_⟩
  have other : y ≠ x := by
    rintro rfl
    exact here absent
  exact (List.mem_erase_of_ne other).mpr (covered.mem y here)

theorem of_combine (upperReduced : upper.Reduced) (lowerReduced : lower.Reduced)
    (combined : combine x upper lower = some e) :
    e.Reduced ∧ (∀ y, e.coeff y = -lower.coeff x * upper.coeff y + upper.coeff x * lower.coeff y) ∧
      ∀ values, e.evalRat values =
        -lower.coeff x * upper.evalRat values + upper.coeff x * lower.evalRat values := by
  unfold combine at combined
  simp only [Option.bind_eq_bind, Option.bind_eq_some_iff] at combined
  obtain ⟨scaled, hscaled, added⟩ := combined
  have scaledReduced := upperReduced.scale? hscaled
  refine ⟨scaledReduced.addScaled? lowerReduced added, fun y => ?_, fun values => ?_⟩
  · rw [LinearForm.coeff_addScaled? scaledReduced.increasing lowerReduced.increasing added,
      LinearForm.coeff_scale? upperReduced.increasing hscaled]
  · rw [LinearForm.evalRat_addScaled? added, LinearForm.evalRat_scale? hscaled, Int.cast_neg]

/-- The variable drops out of what is combined. -/
theorem Over.combine {xs : List Nat} (upperOver : Over xs upper) (lowerOver : Over xs lower)
    (combined : Elimination.combine x upper lower = some e) (tightened : tighten? e = .ok (some e'))
    (listed : e'.coeffs ≠ []) : Over (xs.erase x) e' := by
  obtain ⟨reduced, coeff, -⟩ := of_combine upperOver.reduced lowerOver.reduced combined
  have mem (y : Nat) (here : e'.coeff y ≠ 0) : y ∈ xs := by
    have here := coeff_tighten? reduced tightened here
    rw [coeff] at here
    by_cases above : upper.coeff y = 0
    · refine lowerOver.mem y fun below => here ?_
      rw [above, below, Int.mul_zero, Int.mul_zero, Int.add_zero]
    · exact upperOver.mem y above
  refine Over.erase ⟨reduced_tighten? reduced tightened, listed, mem⟩ ?_
  by_contra here
  refine coeff_tighten? reduced tightened here ?_
  rw [coeff, Int.neg_mul, Int.mul_comm, Int.add_left_neg]

/-- What an upper and a lower bound of a variable say of the other variables. -/
def Meet (values : Nat → ℚ) (x : Nat) (p : LinearForm × LinearForm) : Prop :=
  -p.2.coeff x * p.1.evalRat values + p.1.coeff x * p.2.evalRat values ≤ 0

theorem combineAll_complete (xs : List Nat) {pairs : List (LinearForm × LinearForm)}
    {made : List LinearForm} (covered : ∀ p ∈ pairs, Over xs p.1 ∧ Over xs p.2)
    (overMade : ∀ e ∈ made, Over (xs.erase x) e) :
    Yields (combineAll x pairs made) fun answer => ∀ made', answer = some made' →
      (∀ e ∈ made', Over (xs.erase x) e) ∧ ∀ values, AtMostZeroRat values made' →
        AtMostZeroRat values made ∧ ∀ p ∈ pairs, Meet values x p := by
  induction pairs generalizing made with
  | nil =>
    refine Outcome.yields_pure.mpr fun made' same => ?_
    obtain rfl := Option.some.inj same
    exact ⟨overMade, fun values le => ⟨le, List.forall_mem_nil _⟩⟩
  | cons p pairs ih =>
    obtain ⟨upper, lower⟩ := p
    obtain ⟨⟨upperOver, lowerOver⟩, rest⟩ := List.forall_mem_cons.mp covered
    rw [combineAll]
    refine yields_orOverflow fun e combined => ?_
    obtain ⟨reduced, -, value⟩ := of_combine upperOver.reduced lowerOver.reduced combined
    rw [Outcome.yields_bind, Outcome.yields_liftM]
    intro answer tight
    have meet {values : Nat → ℚ} (le : ∀ e', answer = some e' → e'.evalRat values ≤ 0) :
        Meet values x (upper, lower) :=
      (value values).symm.trans_le (evalRat_of_tighten? reduced tight le)
    cases answer with
    | none =>
      refine (ih rest overMade).mono fun answer kept made' found => ?_
      obtain ⟨overMade', back⟩ := kept made' found
      refine ⟨overMade', fun values le => ?_⟩
      obtain ⟨madeLe, meets⟩ := back values le
      exact ⟨madeLe, List.forall_mem_cons.mpr ⟨meet (by simp), meets⟩⟩
    | some e' =>
      simp only [List.isEmpty_iff]
      split
      · simp
      · rename_i listed
        have overNew := upperOver.combine lowerOver combined tight listed
        refine (ih rest (List.forall_mem_cons.mpr ⟨overNew, overMade⟩)).mono
          fun answer kept made' found => ?_
        obtain ⟨overMade', back⟩ := kept made' found
        refine ⟨overMade', fun values le => ?_⟩
        obtain ⟨madeLe, meets⟩ := back values le
        obtain ⟨first, madeLe⟩ := List.forall_mem_cons.mp madeLe
        exact ⟨madeLe, List.forall_mem_cons.mpr ⟨meet (by simpa using first), meets⟩⟩

theorem exists_between {uppers lowers : List LinearForm} (bound : LinearForm → ℚ)
    (le : ∀ u ∈ uppers, ∀ l ∈ lowers, bound l ≤ bound u) :
    ∃ r, (∀ u ∈ uppers, r ≤ bound u) ∧ ∀ l ∈ lowers, bound l ≤ r := by
  rcases lowers.toFinset.eq_empty_or_nonempty with empty | nonempty
  · obtain ⟨r, below⟩ := (uppers.map bound).toFinset.bddBelow
    refine ⟨r, fun u mem => below (by simpa using ⟨u, mem, rfl⟩), ?_⟩
    rw [List.toFinset_eq_empty_iff] at empty
    simp [empty]
  · obtain ⟨l, mem, greatest⟩ := lowers.toFinset.exists_max_image bound nonempty
    refine ⟨bound l, fun u here => le u here l (List.mem_toFinset.mp mem), fun l' here => ?_⟩
    exact greatest l' (List.mem_toFinset.mpr here)

/-- Where its bounds meet in the other variables, a variable has a value between them. -/
theorem exists_value (increasing : ∀ e ∈ es, e.Increasing)
    (zero : ∀ e ∈ es, e.coeff x = 0 → e.evalRat values ≤ 0)
    (meet : ∀ u ∈ es, 0 < u.coeff x → ∀ l ∈ es, l.coeff x < 0 → Meet values x (u, l)) :
    ∃ r, AtMostZeroRat (Function.update values x r) es := by
  have bounds : ∀ u ∈ es.filter fun e => 0 < e.coeff x, ∀ l ∈ es.filter fun e => e.coeff x < 0,
      -(l.erase x).evalRat values / l.coeff x ≤ -(u.erase x).evalRat values / u.coeff x := by
    intro u above l below
    obtain ⟨memU, above⟩ := List.mem_filter.mp above
    obtain ⟨memL, below⟩ := List.mem_filter.mp below
    have here := meet u memU (by simpa using above) l memL (by simpa using below)
    simp only [Meet, LinearForm.evalRat_erase (increasing u memU) values x,
      LinearForm.evalRat_erase (increasing l memL) values x] at here
    have positive : (0 : ℚ) < u.coeff x := by simpa using above
    have negative : (l.coeff x : ℚ) < 0 := by simpa using below
    rw [div_le_iff_of_neg negative, div_mul_eq_mul_div, div_le_iff₀ positive]
    linarith
  obtain ⟨r, small, large⟩ := exists_between _ bounds
  refine ⟨r, fun e mem => ?_⟩
  rw [LinearForm.evalRat_update (increasing e mem)]
  rcases lt_trichotomy (e.coeff x) 0 with below | none | above
  · have := large e (List.mem_filter.mpr ⟨mem, by simpa using below⟩)
    rw [div_le_iff_of_neg (by exact_mod_cast below)] at this
    linarith
  · have := zero e mem none
    rw [LinearForm.evalRat_erase (increasing e mem) values x] at this
    simpa [none] using this
  · have := small e (List.mem_filter.mpr ⟨mem, by simpa using above⟩)
    rw [le_div_iff₀ (by exact_mod_cast above)] at this
    linarith

/-- The variable of each round takes a value between the bounds that it has in that round. -/
theorem eliminate_complete (xs : List Nat) {es : List LinearForm} (covered : ∀ e ∈ es, Over xs e) :
    Yields (eliminate limits xs es) fun answer => answer = true →
      ∃ values, AtMostZeroRat values es := by
  rw [eliminate]
  split
  · rename_i absent
    refine Outcome.yields_pure.mpr fun _ => ⟨0, fun e mem => ?_⟩
    -- An inequality would have a variable that can be eliminated.
    obtain ⟨y, here⟩ := (covered e mem).reduced.exists_coeff_ne_zero (covered e mem).listed
    have occurs : es.any (fun e => e.coeff y ≠ 0) = true :=
      List.any_eq_true.mpr ⟨e, mem, decide_eq_true here⟩
    have pending : y ∈ xs.filter fun x => es.any fun e => e.coeff x ≠ 0 :=
      List.mem_filter.mpr ⟨(covered e mem).mem y here, occurs⟩
    rw [eq_nil_of_cheapest? absent] at pending
    cases pending
  · rename_i x found
    obtain ⟨pending, shorter⟩ := pending_of_cheapest? found
    rw [dif_pos pending, Outcome.yields_bind]
    refine (combineAll_complete xs ?_ (List.forall_mem_nil _)).mono fun answer kept => ?_
    · intro p mem
      obtain ⟨⟨memU, -⟩, memL, -⟩ := mem_pairs.mp mem
      exact ⟨covered _ memU, covered _ memL⟩
    cases answer with
    | none => simp
    | some made =>
      obtain ⟨overMade, back⟩ := kept made rfl
      simp only
      split
      · exact Outcome.yields_throw
      · have overRemaining : ∀ e ∈ LinearForm.sorted (es.filter (fun e => e.coeff x = 0) ++ made),
            Over (xs.erase x) e :=
          forall_mem_remaining (fun e mem absent => (covered e mem).erase absent) overMade
        refine (eliminate_complete (xs.erase x) overRemaining).mono fun answer solved consistent => ?_
        obtain ⟨values, le⟩ := solved consistent
        obtain ⟨-, meets⟩ := back values fun e mem => le e (by simp [mem])
        obtain ⟨r, le⟩ := exists_value (fun e mem => (covered e mem).reduced.increasing)
          (fun e mem absent => le e (by simp [mem, absent]))
          (fun u memU above l memL below => meets (u, l) (mem_pairs.mpr ⟨⟨memU, above⟩, memL, below⟩))
        exact ⟨_, le⟩
termination_by xs.length

theorem inequalities_complete (reduced : Reduced es) :
    Yields (inequalities limits es) fun answer => answer = true →
      ∃ values, AtMostZeroRat values es := by
  unfold inequalities
  rw [Outcome.yields_bind, Outcome.yields_liftM]
  intro answer tightened
  cases answer with
  | none => simp
  | some es' =>
    obtain ⟨proper, back⟩ := tightenAll_complete reduced tightened
    refine (eliminate_complete _ ?_).mono fun answer solved consistent => ?_
    · intro e mem
      obtain ⟨reduced, listed⟩ := proper e (LinearForm.mem_sorted.mp mem)
      refine ⟨reduced, listed, fun y here => ?_⟩
      rw [List.mem_mergeSort, List.mem_eraseDups, List.mem_flatMap]
      exact ⟨e, mem, LinearForm.mem_of_coeff_ne_zero here⟩
    · obtain ⟨values, le⟩ := solved consistent
      exact ⟨values, back values fun e mem => le e (LinearForm.mem_sorted.mpr mem)⟩

/-! ### Equations -/

/-- The forms before a substitution have the values that the forms after it have, once the variable has
the value of what is inserted. -/
theorem unsubstituted {replacement : LinearForm} (reduced : Reduced es)
    (result : es.mapM (LinearForm.substitute? x replacement) = some es') (good : ℚ → Prop)
    (holds : ∀ e ∈ es', good (e.evalRat values)) :
    ∀ e ∈ es, good (e.evalRat (Function.update values x (replacement.evalRat values))) := by
  intro e mem
  obtain ⟨e', mem', substituted⟩ := exists_mem_of_mapM result mem
  rw [← LinearForm.evalRat_substitute? (reduced e mem).increasing substituted]
  exact holds e' mem'

theorem Reduced.substituted {replacement : LinearForm} (reduced : Reduced es)
    (replacementReduced : replacement.Reduced)
    (result : es.mapM (LinearForm.substitute? x replacement) = some es') : Reduced es' := by
  intro e' mem
  obtain ⟨e, old, substituted⟩ := exists_of_mem_mapM result mem
  exact (reduced e old).substitute? replacementReduced substituted

theorem solved_zero {c : Int} {replacement : LinearForm} (increasing : e.Increasing)
    (unit : e.unit? = some (x, c)) (scaled : (e.erase x).scale? (-c) = some replacement)
    (values : Nat → ℚ) :
    e.evalRat (Function.update values x (replacement.evalRat values)) = 0 := by
  obtain ⟨mem, sign⟩ := LinearForm.mem_of_unit? unit
  rw [LinearForm.evalRat_update increasing, LinearForm.coeff_of_mem increasing mem,
    LinearForm.evalRat_scale? scaled]
  rcases sign with rfl | rfl <;> simp

theorem equations_complete {eqs les : List LinearForm} (reducedEqs : Reduced eqs)
    (reducedLes : Reduced les) : Yields (equations limits eqs les) fun answer => answer = true →
      ∃ values, ZeroRat values eqs ∧ AtMostZeroRat values les := by
  cases eqs with
  | nil =>
    rw [equations]
    refine (inequalities_complete reducedLes).mono fun answer solved consistent => ?_
    obtain ⟨values, le⟩ := solved consistent
    exact ⟨values, List.forall_mem_nil _, le⟩
  | cons e eqs =>
    obtain ⟨reduced, reducedEqs⟩ := List.forall_mem_cons.mp reducedEqs
    rw [equations_cons, Outcome.yields_bind, Outcome.yields_liftM]
    intro g divisor
    split
    · rename_i constant
      subst constant
      split
      · simp
      · rename_i zero
        refine (equations_complete reducedEqs reducedLes).mono fun answer solved consistent => ?_
        obtain ⟨values, others, le⟩ := solved consistent
        refine ⟨values, List.forall_mem_cons.mpr ⟨?_, others⟩, le⟩
        rw [LinearForm.evalRat_of_gcd reduced divisor, not_not.mp zero, Int.cast_zero]
    · split
      · simp
      split
      · rename_i x c unit
        refine yields_orOverflow fun replacement scaled => ?_
        have replacementReduced := (reduced.erase x).scale? scaled
        refine yields_orOverflow fun eqs' result => yields_orOverflow fun les' resultLes => ?_
        have shorter := length_mapM result
        refine (equations_complete (Reduced.substituted reducedEqs replacementReduced result)
          (Reduced.substituted reducedLes replacementReduced resultLes)).mono
            fun answer solved consistent => ?_
        obtain ⟨values, zero, le⟩ := solved consistent
        refine ⟨_, List.forall_mem_cons.mpr ⟨?_, unsubstituted reducedEqs result (· = 0) zero⟩,
          unsubstituted reducedLes resultLes (· ≤ 0) le⟩
        exact solved_zero reduced.increasing unit scaled values
      · refine yields_orOverflow fun opposite scaled => ?_
        refine (equations_complete reducedEqs ?_).mono fun answer solved consistent => ?_
        · refine List.forall_mem_append.mpr ⟨reducedLes, ?_⟩
          simpa using ⟨reduced, reduced.scale? scaled⟩
        · obtain ⟨values, zero, le⟩ := solved consistent
          obtain ⟨le, both⟩ := List.forall_mem_append.mp le
          refine ⟨values, List.forall_mem_cons.mpr ⟨?_, zero⟩, le⟩
          -- The equation stood for two inequalities, which say that it holds.
          have above := both e (by simp)
          have below := both opposite (by simp)
          rw [LinearForm.evalRat_scale? scaled] at below
          push_cast at below
          linarith
termination_by eqs.length
decreasing_by all_goals (subst_vars; simp only [List.length_cons]; omega)

/-! ### Disequalities -/

/-- A form that differs from 0 is at least 1 away from it. -/
def Apart (values : Nat → ℚ) (e : LinearForm) : Prop := e.evalRat values ≤ -1 ∨ 1 ≤ e.evalRat values

/-- A rational solution of equations, disequalities and inequalities. -/
structure SolvedRat (values : Nat → ℚ) (eqs nes les : List LinearForm) : Prop where
  zero : ZeroRat values eqs
  apart : ∀ e ∈ nes, Apart values e
  atMostZero : AtMostZeroRat values les

theorem SolvedRat.of_side {ne : LinearForm} (solved : SolvedRat values eqs nes (les ++ [e]))
    (side : e.evalRat values ≤ 0 → Apart values ne) : SolvedRat values eqs (ne :: nes) les := by
  obtain ⟨le, last⟩ := List.forall_mem_append.mp solved.atMostZero
  exact ⟨solved.zero, List.forall_mem_cons.mpr ⟨side (last e List.mem_cons_self), solved.apart⟩, le⟩

theorem split_complete {les : List LinearForm} {count : Nat} (reducedEqs : Reduced eqs)
    (reducedNes : Reduced nes) (reducedLes : Reduced les) :
    Yields ((split limits eqs nes les).run count) fun r => r.1 = true →
      ∃ values, SolvedRat values eqs nes les := by
  induction nes generalizing les count with
  | nil =>
    rw [split_nil, Outcome.yields_bind]
    refine (equations_complete reducedEqs reducedLes).mono fun answer solved => ?_
    refine Outcome.yields_pure.mpr fun consistent => ?_
    obtain ⟨values, zero, le⟩ := solved consistent
    exact ⟨values, zero, List.forall_mem_nil _, le⟩
  | cons ne nes ih =>
    obtain ⟨reduced, reducedNes⟩ := List.forall_mem_cons.mp reducedNes
    rw [split_cons, Outcome.yields_bind]
    refine (equations_complete reducedEqs reducedLes).mono fun answer _ => ?_
    cases answer with
    | false => exact Outcome.yields_pure.mpr nofun
    | true =>
      rw [if_pos rfl]
      split
      · exact Outcome.yields_throw
      refine yields_orOverflow fun below below? => yields_orOverflow fun above above? => ?_
      obtain ⟨scaled, scaled?, added⟩ := Option.bind_eq_some_iff.mp above?
      have extended {e : LinearForm} (reduced : e.Reduced) : Reduced (les ++ [e]) :=
        List.forall_mem_append.mpr ⟨reducedLes, by simpa using reduced⟩
      rw [Outcome.yields_bind]
      refine (ih reducedNes (extended (reduced.addConst? below?))).mono fun r solved => ?_
      obtain ⟨answer, count'⟩ := r
      cases answer with
      | true =>
        obtain ⟨values, solved⟩ := solved rfl
        refine Outcome.yields_pure.mpr fun _ => ⟨values, solved.of_side fun small => .inl ?_⟩
        rw [LinearForm.evalRat_addConst? below?] at small
        push_cast at small
        linarith
      | false =>
        have reducedAbove := (reduced.scale? scaled?).addConst? added
        refine (ih reducedNes (extended reducedAbove)).mono fun r solved consistent => ?_
        obtain ⟨values, solved⟩ := solved consistent
        refine ⟨values, solved.of_side fun small => .inr ?_⟩
        rw [LinearForm.evalRat_addConst? added, LinearForm.evalRat_scale? scaled?] at small
        push_cast at small
        linarith

end Elimination

/-! ### Constraints of literals -/

open Checked (Ensures)

theorem LinearForm.reduced_of_opaqueTerm {known known' : List Term} {t : Term} {e : LinearForm}
    (run : (LinearizeM.opaqueTerm t).run known = .ok (e, known')) : e.Reduced := by
  obtain ⟨x, rfl, -⟩ := LinearizeM.of_opaqueTerm run
  exact reduced_ofVar x

/-- Every linear form comes from constants and variables by operations that keep it reduced. -/
theorem Term.linearize_reduced {known known' : List Term} {t : Term} {e : LinearForm}
    (run : t.linearize.run known = .ok (e, known')) : e.Reduced := by
  induction t generalizing known known' e with
  | const c =>
    cases run
    exact LinearForm.reduced_ofConst c
  | var x => exact LinearForm.reduced_of_opaqueTerm run
  | neg a ih =>
    obtain ⟨ea, operand, scaled⟩ := of_linearize_neg run
    exact (ih operand).scale? scaled
  | bitNot a ih =>
    obtain ⟨ea, m, operand, scaled, added⟩ := of_linearize_bitNot run
    exact ((ih operand).scale? scaled).addConst? added
  | binary op a b ihA ihB =>
    obtain ⟨ea, known₁, eb, known₂, left, right, combines⟩ := of_linearize_binary run
    cases combines with
    | add _ added => exact (ihA left).addScaled? (ihB right) added
    | sub _ subtracted => exact (ihA left).addScaled? (ihB right) subtracted
    | mulLeft _ _ scaled => exact (ihB right).scale? scaled
    | mulRight _ _ scaled => exact (ihA left).scale? scaled
    | fold => exact LinearForm.reduced_ofConst _
    | asOpaque run => exact LinearForm.reduced_of_opaqueTerm run

namespace Constraint

open LinearizeM

theorem ofComparison_reduced {known : List Term} (r : Relation) (a b : Term) (truth : Bool) :
    Ensures (ofComparison r a b truth) known (fun _ => True) fun c _ => c.form.Reduced := by
  have linearized (t : Term) (known : List Term) :
      Ensures t.linearize known (fun _ => True) fun e _ => e.Reduced :=
    Checked.ensures_of_forall (fun _ _ run => Term.linearize_reduced run) fun _ _ => trivial
  rw [ofComparison, Checked.ensures_bind]
  refine (linearized a _).mono fun ea known left => ?_
  rw [Checked.ensures_bind]
  refine (linearized b _).mono fun eb known right => ?_
  refine orOverflow_ensures fun e sub => ?_
  have reduced := left.addScaled? right sub
  split
  · exact reduced
  · exact orOverflow_ensures fun e' scaled => orOverflow_ensures fun e'' added =>
      (reduced.scale? scaled).addConst? added
  · exact orOverflow_ensures fun e' added => reduced.addConst? added
  · exact orOverflow_ensures fun e' scaled => reduced.scale? scaled
  · exact reduced
  · exact reduced

theorem ofLiterals_reduced {known : List Term} (ls : List (Formula × Bool)) :
    Ensures (ofLiterals ls) known (fun _ => True) fun cs _ => ∀ c ∈ cs, c.form.Reduced := by
  fun_induction ofLiterals ls generalizing known with
  | case1 => exact List.forall_mem_nil _
  | case2 r a b truth ls ih =>
    rw [Checked.ensures_bind]
    refine (ofComparison_reduced r a b truth).mono fun c known reduced => ?_
    rw [Checked.ensures_bind]
    exact ih.mono fun cs known others => List.forall_mem_cons.mpr ⟨reduced, others⟩
  | case3 l ls other ih => exact ih

/-- What the constraint requires of rational numbers. A form that differs from 0 is at least 1 away. -/
def HoldsRat (values : Nat → ℚ) : Constraint → Prop
  | .atMostZero e => e.evalRat values ≤ 0
  | .zero e => e.evalRat values = 0
  | .nonzero e => e.evalRat values ≤ -1 ∨ 1 ≤ e.evalRat values

theorem areConsistent_complete {limits : SolverLimits} {cs : List Constraint}
    (reduced : ∀ c ∈ cs, c.form.Reduced) :
    Yields (areConsistent limits cs) fun answer => answer = true →
      ∃ values, ∀ c ∈ cs, c.HoldsRat values := by
  obtain ⟨eqs, nes, les, consistent, zero, nonzero, atMostZero⟩ := areConsistent_parts cs
  rw [consistent, Outcome.yields_bind]
  refine (Elimination.split_complete (fun e mem => reduced _ ((zero e).mp mem))
    (fun e mem => reduced _ ((nonzero e).mp mem))
    fun e mem => reduced _ ((atMostZero e).mp mem)).mono fun r solved => ?_
  refine Outcome.yields_pure.mpr fun consistent => ?_
  obtain ⟨values, solved⟩ := solved consistent
  refine ⟨values, fun c mem => ?_⟩
  cases c with
  | zero e => exact solved.zero e ((zero e).mpr mem)
  | nonzero e => exact solved.apart e ((nonzero e).mpr mem)
  | atMostZero e => exact solved.atMostZero e ((atMostZero e).mpr mem)

/-- Constraints that are found consistent have a rational solution, whatever the limits are. The
coefficients are those of forms: one for each variable and none of them zero, which all constraints of
literals satisfy. -/
theorem exists_rational_of_areConsistent :
    (∀ ls known cs known', (ofLiterals ls).run known = .ok (cs, known') →
      ∀ c ∈ cs, c.form.Reduced) ∧
    ∀ limits cs, (∀ c ∈ cs, c.form.Reduced) → (areConsistent limits cs).run = .ok (.ok true) →
      ∃ values : Nat → ℚ, ∀ c ∈ cs, c.HoldsRat values :=
  ⟨fun ls _ _ _ run => (ofLiterals_reduced ls).of_ok run,
    fun _ _ reduced run => areConsistent_complete reduced true run rfl⟩

def betweenIntegers : List Constraint :=
  [.zero ⟨[(0, 2), (1, 3)], -1⟩, .atMostZero ⟨[(0, -1)], 0⟩, .atMostZero ⟨[(1, -1)], 0⟩,
    .nonzero ⟨[(0, 1)], -3⟩]

/-- The answer is that they are consistent, and only rational numbers solve them. -/
theorem exists_rational_betweenIntegers :
    (areConsistent {} betweenIntegers).run = .ok (.ok true) ∧
      (∃ values : Nat → ℚ, ∀ c ∈ betweenIntegers, c.HoldsRat values) ∧
      ¬ ∃ values : Nat → Int, ∀ c ∈ betweenIntegers, c.Holds values := by
  have consistent : (areConsistent {} betweenIntegers).run = .ok (.ok true) := by cbv
  have reduced : ∀ c ∈ betweenIntegers, c.form.Reduced := by decide
  refine ⟨consistent, exists_rational_of_areConsistent.2 {} betweenIntegers reduced consistent, ?_⟩
  rintro ⟨values, holds⟩
  simp only [betweenIntegers, List.forall_mem_cons, Holds, LinearForm.eval, LinearForm.sumOf] at holds
  omega

end Constraint

end ProgramAnalysis
