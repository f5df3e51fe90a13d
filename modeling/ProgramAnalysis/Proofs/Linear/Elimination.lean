import Mathlib.Data.List.Induction
import ProgramAnalysis.Linear.Elimination
import ProgramAnalysis.Proofs.Linear.Constraint

/-! The answer that constraints have no common solution is right: every step keeps the integer
solutions of the constraints that it works on. -/
namespace ProgramAnalysis

open Outcome (Yields)

namespace Elimination

variable {values : Nat → Int} {limits : SolverLimits} {e e' upper lower : LinearForm}
  {es es' eqs les nes : List LinearForm} {x : Nat}

def AtMostZero (values : Nat → Int) (es : List LinearForm) : Prop :=
  ∀ e ∈ es, e.eval values ≤ 0

def Zero (values : Nat → Int) (es : List LinearForm) : Prop := ∀ e ∈ es, e.eval values = 0

def Increasing (es : List LinearForm) : Prop := ∀ e ∈ es, e.Increasing

theorem atMostZero_append {es es' : List LinearForm} :
    AtMostZero values (es ++ es') ↔ AtMostZero values es ∧ AtMostZero values es' :=
  List.forall_mem_append

theorem yields_orOverflow {α β : Type} {a : Option α} {f : α → Reasoning β} {good : β → Prop}
    (step : ∀ a', a = some a' → Yields (f a') good) : Yields (orOverflow a >>= f) good := by
  rw [Outcome.yields_bind]
  cases a with
  | none => exact Outcome.yields_throw
  | some a => exact Outcome.yields_pure.mpr (step a rfl)

/-! ### Tightening -/

/-- The divisor 0 leaves a constant, and the divisor 1 leaves the inequality as it is. -/
theorem tighten?_cases {answer : Option LinearForm} (tightened : tighten? e = .ok answer) :
    ∃ g, e.gcd = .ok g ∧ (g = 0 ∧ answer = (if 0 < e.constant then some e else none) ∨
      g = 1 ∧ answer = some e ∨
      1 < g ∧ answer = some ⟨e.coeffs.map fun (x, c) => (x, c / g), -(-e.constant / g)⟩) := by
  unfold tighten? at tightened
  cases divisor : e.gcd with
  | error v => simp [divisor, bind, Except.bind] at tightened
  | ok g =>
    refine ⟨g, rfl, ?_⟩
    simp only [divisor, bind, Except.bind, pure, Except.pure] at tightened
    split at tightened
    · rename_i zero
      split at tightened
      · rename_i positive
        cases tightened
        exact .inl ⟨zero, (if_pos positive).symm⟩
      · rename_i small
        cases tightened
        exact .inl ⟨zero, (if_neg small).symm⟩
    · split at tightened
      · rename_i one
        cases tightened
        exact .inr (.inl ⟨one, rfl⟩)
      · split at tightened
        · cases tightened
        · cases tightened
          exact .inr (.inr ⟨by omega, rfl⟩)

theorem tighten?_le (tightened : tighten? e = .ok (some e')) (le : e.eval values ≤ 0) :
    e'.eval values ≤ 0 := by
  obtain ⟨g, divisor, ⟨-, same⟩ | ⟨-, same⟩ | ⟨large, same⟩⟩ := tighten?_cases tightened
  · split at same
    · cases same
      exact le
    · cases same
  · cases same
    exact le
  · cases same
    have positive : (0 : Int) < g := by omega
    have sum := LinearForm.sumOf_map_div (LinearForm.dvd_of_gcd divisor) values
    simp only [LinearForm.eval] at le ⊢
    generalize LinearForm.sumOf values (e.coeffs.map _) = s at sum ⊢
    have bound : s ≤ -e.constant / g := by
      rw [Int.le_ediv_iff_mul_le positive, mul_comm, sum]
      omega
    omega

theorem tighten?_positive (values : Nat → Int) (tightened : tighten? e = .ok (some e'))
    (empty : e'.coeffs = []) : 0 < e'.eval values := by
  have constant : e'.eval values = e'.constant := by
    rw [LinearForm.eval, empty, LinearForm.sumOf, Int.zero_add]
  rw [constant]
  obtain ⟨g, divisor, found⟩ := tighten?_cases tightened
  have zero (empty : e.coeffs = []) : g = 0 :=
    Except.ok.inj (divisor.symm.trans (LinearForm.gcd_of_nil empty))
  rcases found with ⟨-, same⟩ | ⟨rfl, same⟩ | ⟨large, same⟩
  · split at same
    · cases same
      assumption
    · cases same
  · cases same
    exact absurd (zero empty) Nat.one_ne_zero
  · cases same
    have := zero (by simpa using empty)
    omega

theorem of_tightenAll_cons {answer : Option (List LinearForm)}
    (tightened : tightenAll (e :: es) = .ok answer) :
    (tighten? e = .ok none ∧ tightenAll es = .ok answer) ∨ ∃ e', tighten? e = .ok (some e') ∧
      (e'.coeffs = [] ∧ answer = none ∨
        e'.coeffs ≠ [] ∧ ∃ others, tightenAll es = .ok others ∧ answer = others.map (e' :: ·)) := by
  rw [tightenAll] at tightened
  obtain ⟨first, tight, rest⟩ := Outcome.exists_of_bind tightened
  cases first with
  | none => exact .inl ⟨tight, rest⟩
  | some e' =>
    refine .inr ⟨e', tight, ?_⟩
    simp only [List.isEmpty_iff] at rest
    split at rest
    · rename_i empty
      cases rest
      exact .inl ⟨empty, rfl⟩
    · rename_i listed
      obtain ⟨others, found, same⟩ := Outcome.exists_of_bind rest
      cases same
      exact .inr ⟨listed, others, found, rfl⟩

theorem tightenAll_spec {answer : Option (List LinearForm)} (tightened : tightenAll es = .ok answer)
    (le : AtMostZero values es) : ∃ es', answer = some es' ∧ AtMostZero values es' := by
  induction es generalizing answer with
  | nil =>
    cases tightened
    exact ⟨[], rfl, by simp [AtMostZero]⟩
  | cons e es ih =>
    obtain ⟨here, rest⟩ := List.forall_mem_cons.mp le
    obtain ⟨-, found⟩ | ⟨e', tight, ⟨empty, -⟩ | ⟨-, others, found, rfl⟩⟩ :=
      of_tightenAll_cons tightened
    · exact ih found rest
    · have := tighten?_positive values tight empty
      have := tighten?_le tight here
      omega
    · obtain ⟨es', rfl, kept⟩ := ih found rest
      exact ⟨e' :: es', rfl, List.forall_mem_cons.mpr ⟨tighten?_le tight here, kept⟩⟩

/-! ### Variables of inequalities -/

theorem combine_le (combined : combine x upper lower = some e) (above : 0 < upper.coeff x)
    (below : lower.coeff x < 0) (upperLe : upper.eval values ≤ 0)
    (lowerLe : lower.eval values ≤ 0) : e.eval values ≤ 0 := by
  unfold combine at combined
  simp only [Option.bind_eq_bind, Option.bind_eq_some_iff] at combined
  obtain ⟨scaled, hscaled, added⟩ := combined
  rw [(LinearForm.of_addScaled? added).1, LinearForm.eval_scale? hscaled]
  have first := Int.mul_nonpos_of_nonneg_of_nonpos (show 0 ≤ -lower.coeff x by omega) upperLe
  have second := Int.mul_nonpos_of_nonneg_of_nonpos (show 0 ≤ upper.coeff x by omega) lowerLe
  omega

theorem combineAll_yields (values : Nat → Int) {pairs : List (LinearForm × LinearForm)}
    {made : List LinearForm}
    (bounds : ∀ p ∈ pairs, 0 < p.1.coeff x ∧ p.2.coeff x < 0 ∧ p.1.eval values ≤ 0 ∧
      p.2.eval values ≤ 0) (le : AtMostZero values made) :
    Yields (combineAll x pairs made) fun answer =>
      ∃ made', answer = some made' ∧ AtMostZero values made' := by
  induction pairs generalizing made with
  | nil => exact Outcome.yields_pure.mpr ⟨made, rfl, le⟩
  | cons p pairs ih =>
    obtain ⟨upper, lower⟩ := p
    obtain ⟨⟨above, below, upperLe, lowerLe⟩, rest⟩ := List.forall_mem_cons.mp bounds
    rw [combineAll]
    refine yields_orOverflow fun e combined => ?_
    have combinedLe := combine_le combined above below upperLe lowerLe
    rw [Outcome.yields_bind, Outcome.yields_liftM]
    intro r tight
    cases r with
    | none => exact ih rest le
    | some e' =>
      have tightLe := tighten?_le tight combinedLe
      simp only [List.isEmpty_iff]
      split
      · rename_i empty
        have := tighten?_positive values tight empty
        omega
      · exact ih rest (List.forall_mem_cons.mpr ⟨tightLe, le⟩)

theorem mem_pairs {p : LinearForm × LinearForm} :
    p ∈ (es.filter fun e => 0 < e.coeff x).flatMap
        (fun u => (es.filter fun e => e.coeff x < 0).map fun l => (u, l)) ↔
      (p.1 ∈ es ∧ 0 < p.1.coeff x) ∧ p.2 ∈ es ∧ p.2.coeff x < 0 := by
  obtain ⟨u, l⟩ := p
  simp

theorem cheapest?_concat (es : List LinearForm) (xs : List Nat) (x : Nat) :
    cheapest? es (xs ++ [x]) = some x ∨
      ∃ y, cheapest? es (xs ++ [x]) = some y ∧ cheapest? es xs = some y := by
  simp only [cheapest?, List.foldl_append, List.foldl_cons, List.foldl_nil]
  generalize xs.foldl _ none = best
  cases best with
  | none => exact .inl rfl
  | some p =>
    dsimp only
    split
    · exact .inl rfl
    · exact .inr ⟨p.2, rfl, rfl⟩

theorem mem_of_cheapest? {xs : List Nat} (found : cheapest? es xs = some x) : x ∈ xs := by
  induction xs using List.reverseRecOn with
  | nil => cases found
  | append_singleton xs y ih =>
    rcases cheapest?_concat es xs y with last | ⟨z, same, before⟩
    · rw [last] at found
      obtain rfl := Option.some.inj found
      exact List.mem_append_right _ List.mem_cons_self
    · rw [same, ← before] at found
      exact List.mem_append_left _ (ih found)

theorem eq_nil_of_cheapest? {xs : List Nat} (absent : cheapest? es xs = none) : xs = [] := by
  rcases xs.eq_nil_or_concat with rfl | ⟨ys, y, rfl⟩
  · rfl
  · rcases cheapest?_concat es ys y with last | ⟨z, same, -⟩ <;> simp_all

/-- The variable that is eliminated is one of those that are left, and then fewer are left. -/
theorem pending_of_cheapest? {xs : List Nat} {p : Nat → Bool}
    (found : cheapest? es (xs.filter p) = some x) : x ∈ xs ∧ (xs.erase x).length < xs.length := by
  have pending : x ∈ xs := List.mem_filter.mp (mem_of_cheapest? found) |>.1
  refine ⟨pending, ?_⟩
  rw [List.length_erase_of_mem pending]
  exact Nat.sub_one_lt (Nat.ne_of_gt (List.length_pos_of_mem pending))

/-- What holds of the inequalities without the variable and of those that were made holds of all that the
elimination goes on with. -/
theorem forall_mem_remaining {made : List LinearForm} {good : LinearForm → Prop}
    (old : ∀ e ∈ es, e.coeff x = 0 → good e) (new : ∀ e ∈ made, good e) :
    ∀ e ∈ LinearForm.sorted (es.filter (fun e => e.coeff x = 0) ++ made), good e := by
  intro e mem
  rw [LinearForm.mem_sorted, List.mem_append, List.mem_filter, decide_eq_true_eq] at mem
  rcases mem with ⟨mem, absent⟩ | mem
  · exact old e mem absent
  · exact new e mem

/-- Inequalities with a solution are never refuted. -/
theorem eliminate_yields (xs : List Nat) {es : List LinearForm} (le : AtMostZero values es) :
    Yields (eliminate limits xs es) fun answer => answer = true := by
  rw [eliminate]
  split
  · exact Outcome.yields_pure.mpr rfl
  · rename_i x found
    -- The induction is on the number of variables that are left.
    obtain ⟨pending, shorter⟩ := pending_of_cheapest? found
    rw [dif_pos pending, Outcome.yields_bind]
    refine (combineAll_yields values ?_ (by simp [AtMostZero])).mono ?_
    · intro p mem
      obtain ⟨⟨memU, above⟩, memL, below⟩ := mem_pairs.mp mem
      exact ⟨above, below, le _ memU, le _ memL⟩
    · rintro - ⟨made, rfl, madeLe⟩
      simp only
      split
      · exact Outcome.yields_throw
      · exact eliminate_yields (xs.erase x) (forall_mem_remaining (fun e mem _ => le e mem) madeLe)
termination_by xs.length

theorem inequalities_yields (le : AtMostZero values es) :
    Yields (inequalities limits es) fun answer => answer = true := by
  unfold inequalities
  rw [Outcome.yields_bind, Outcome.yields_liftM]
  intro answer tightened
  obtain ⟨es', rfl, kept⟩ := tightenAll_spec tightened le
  exact eliminate_yields _ fun e mem => kept e (LinearForm.mem_sorted.mp mem)

/-! ### Equations -/

theorem solved_value {c : Int} {replacement : LinearForm} (increasing : e.Increasing)
    (zero : e.eval values = 0) (unit : e.unit? = some (x, c))
    (scaled : (e.erase x).scale? (-c) = some replacement) :
    values x = replacement.eval values := by
  obtain ⟨mem, sign⟩ := LinearForm.mem_of_unit? unit
  rw [LinearForm.eval_erase increasing values x, LinearForm.coeff_of_mem increasing mem] at zero
  rw [LinearForm.eval_scale? scaled]
  rcases sign with rfl | rfl
  · omega
  · omega

theorem map_of_mapM {α β : Type} {f : α → Option β} {xs : List α} {ys : List β}
    (mapped : xs.mapM f = some ys) : xs.map f = ys.map some := by
  induction xs generalizing ys with
  | nil =>
    cases mapped
    rfl
  | cons x xs ih =>
    rw [List.mapM_cons] at mapped
    simp only [Option.bind_eq_bind, Option.bind_eq_some_iff, Option.pure_def,
      Option.some.injEq] at mapped
    obtain ⟨y, first, ys, rest, rfl⟩ := mapped
    rw [List.map_cons, List.map_cons, first, ih rest]

theorem exists_of_mem_mapM {α β : Type} {f : α → Option β} {xs : List α} {ys : List β} {y : β}
    (mapped : xs.mapM f = some ys) (mem : y ∈ ys) : ∃ x ∈ xs, f x = some y := by
  rw [← List.mem_map, map_of_mapM mapped]
  exact List.mem_map_of_mem mem

theorem exists_mem_of_mapM {α β : Type} {f : α → Option β} {xs : List α} {ys : List β} {x : α}
    (mapped : xs.mapM f = some ys) (mem : x ∈ xs) : ∃ y ∈ ys, f x = some y := by
  have image : f x ∈ ys.map some := map_of_mapM mapped ▸ List.mem_map_of_mem mem
  obtain ⟨y, mem, same⟩ := List.mem_map.mp image
  exact ⟨y, mem, same.symm⟩

theorem substituted {replacement : LinearForm} (increasing : Increasing es)
    (result : es.mapM (LinearForm.substitute? x replacement) = some es')
    (solved : values x = replacement.eval values) (good : Int → Prop)
    (holds : ∀ e ∈ es, good (e.eval values)) : ∀ e ∈ es', good (e.eval values) := by
  intro e' mem
  obtain ⟨e, old, substituted⟩ := exists_of_mem_mapM result mem
  rw [LinearForm.eval_substitute? (increasing e old) substituted values solved]
  exact holds e old

theorem Increasing.substituted {replacement : LinearForm} (increasing : Increasing es)
    (replacementIncreasing : replacement.Increasing)
    (result : es.mapM (LinearForm.substitute? x replacement) = some es') : Increasing es' := by
  intro e' mem
  obtain ⟨e, old, substituted⟩ := exists_of_mem_mapM result mem
  exact (increasing e old).substitute? replacementIncreasing substituted

/-- A sum with a common divisor of its coefficients is no number that the divisor does not divide. -/
theorem dvd_constant {g : Nat} (divisor : e.gcd = .ok g) (zero : e.eval values = 0) :
    e.constant % g = 0 := by
  have divides := LinearForm.dvd_sumOf (LinearForm.dvd_of_gcd divisor) values
  rw [LinearForm.eval] at zero
  have : e.constant = -LinearForm.sumOf values e.coeffs := by omega
  rw [this]
  exact Int.emod_eq_zero_of_dvd (Int.dvd_neg.mpr divides)

/-- An equation is used up whether or not it can be solved for a variable. -/
theorem equations_cons (limits : SolverLimits) (e : LinearForm) (eqs les : List LinearForm) :
    equations limits (e :: eqs) les = (do
      let g ← e.gcd
      if g = 0 then
        if e.constant ≠ 0 then return false else equations limits eqs les
      else if e.constant % g ≠ 0 then return false
      else
        match e.unit? with
        | some (x, c) =>
          let replacement ← orOverflow ((e.erase x).scale? (-c))
          let eqs ← orOverflow (eqs.mapM (LinearForm.substitute? x replacement))
          let les ← orOverflow (les.mapM (LinearForm.substitute? x replacement))
          equations limits eqs les
        | none =>
          let opposite ← orOverflow (e.scale? (-1))
          equations limits eqs (les ++ [e, opposite])) := by
  rw [equations]
  refine bind_congr fun g => ?_
  cases unit : e.unit? with
  | none => rfl
  | some solution =>
    obtain ⟨x, c⟩ := solution
    split
    · rfl
    split
    · rfl
    refine bind_congr fun replacement => ?_
    split
    · rename_i failed
      rw [failed]
      rfl
    · rename_i eqs' result
      rw [result]
      rfl

theorem equations_solve {e replacement : LinearForm} {eqs eqs' les les' : List LinearForm} {g x : Nat}
    {c : Int} (divisor : e.gcd = .ok g) (nonzero : g ≠ 0) (divides : e.constant % g = 0)
    (unit : e.unit? = some (x, c)) (solved : (e.erase x).scale? (-c) = some replacement)
    (substitutedEqs : eqs.mapM (LinearForm.substitute? x replacement) = some eqs')
    (substitutedLes : les.mapM (LinearForm.substitute? x replacement) = some les') :
    equations limits (e :: eqs) les = equations limits eqs' les' := by
  rw [equations_cons, divisor]
  change (if g = 0 then _ else _) = _
  rw [if_neg nonzero, if_neg (not_not.mpr divides), unit]
  simp only [solved, substitutedEqs, substitutedLes, orOverflow, pure_bind]

theorem equations_yields {eqs les : List LinearForm} (increasingEqs : Increasing eqs)
    (increasingLes : Increasing les) (zero : Zero values eqs) (le : AtMostZero values les) :
    Yields (equations limits eqs les) fun answer => answer = true := by
  cases eqs with
  | nil =>
    rw [equations]
    exact inequalities_yields le
  | cons e eqs =>
    obtain ⟨here, rest⟩ := List.forall_mem_cons.mp zero
    obtain ⟨increasing, increasingEqs⟩ := List.forall_mem_cons.mp increasingEqs
    rw [equations_cons, Outcome.yields_bind, Outcome.yields_liftM]
    intro g divisor
    have divides := dvd_constant divisor here
    split
    · rename_i constant
      subst constant
      have : e.constant = 0 := by simpa using divides
      rw [if_neg (by simpa using this)]
      exact equations_yields increasingEqs increasingLes rest le
    · rw [if_neg (by simpa using divides)]
      split
      · rename_i x c unit
        refine yields_orOverflow fun replacement scaled => ?_
        have solved := solved_value increasing here unit scaled
        have increasingReplacement := (increasing.erase x).scale? scaled
        refine yields_orOverflow fun eqs' result => yields_orOverflow fun les' resultLes => ?_
        -- Every other equation changed, but one equation fewer is left.
        have shorter := length_mapM result
        exact equations_yields (Increasing.substituted increasingEqs increasingReplacement result)
          (Increasing.substituted increasingLes increasingReplacement resultLes)
          (substituted increasingEqs result solved (· = 0) rest)
          (substituted increasingLes resultLes solved (· ≤ 0) le)
      · refine yields_orOverflow fun opposite scaled => ?_
        refine equations_yields increasingEqs ?_ rest ?_
        · intro e' mem
          rcases List.mem_append.mp mem with mem | mem
          · exact increasingLes e' mem
          · simp only [List.mem_cons, List.not_mem_nil, or_false] at mem
            rcases mem with rfl | rfl
            · exact increasing
            · exact increasing.scale? scaled
        · refine atMostZero_append.mpr ⟨le, ?_⟩
          intro e' mem
          simp only [List.mem_cons, List.not_mem_nil, or_false] at mem
          rcases mem with rfl | rfl
          · omega
          · rw [LinearForm.eval_scale? scaled]
            omega
termination_by eqs.length
decreasing_by all_goals (subst_vars; simp only [List.length_cons]; omega)

/-! ### Disequalities -/

theorem split_nil (limits : SolverLimits) (eqs les : List LinearForm) (count : Nat) :
    (split limits eqs [] les).run count = (do
      let answer ← equations limits eqs les
      return (answer, count)) := by
  simp only [split, StateT.run_bind, StateT.run_monadLift, monadLift_self, bind_assoc, pure_bind]
  refine bind_congr fun answer => ?_
  cases answer <;> rfl

/-- A disequality is given up for one side, and for the other if the first side is refuted. -/
theorem split_cons (limits : SolverLimits) (ne : LinearForm) (eqs nes les : List LinearForm)
    (count : Nat) :
    (split limits eqs (ne :: nes) les).run count = (do
      if ← equations limits eqs les then
        if limits.maxCaseSplits < count + 1 then throw (.caseSplits limits.maxCaseSplits)
        else
          let below ← orOverflow (ne.addConst? 1)
          let above ← orOverflow ((ne.scale? (-1)).bind (·.addConst? 1))
          let (answer, count) ← (split limits eqs nes (les ++ [below])).run (count + 1)
          if answer then return (true, count) else (split limits eqs nes (les ++ [above])).run count
      else return (false, count)) := by
  simp only [split, StateT.run_bind, StateT.run_monadLift, monadLift_self, bind_assoc, pure_bind]
  refine bind_congr fun answer => ?_
  cases answer with
  | false => rfl
  | true =>
    simp only [Bool.not_true, Bool.false_eq_true, if_false, if_true, StateT.run_bind,
      StateT.run_modify, StateT.run_get, pure_bind]
    split
    · rfl
    · simp only [StateT.run_bind, StateT.run_monadLift, monadLift_self, bind_assoc, pure_bind]
      refine bind_congr fun below => bind_congr fun above => bind_congr fun r => ?_
      obtain ⟨answer, count'⟩ := r
      cases answer <;> rfl

theorem split_of_refuted {nes les : List LinearForm} {count : Nat}
    (refuted : equations limits eqs les = pure false) :
    (split limits eqs nes les).run count = pure (false, count) := by
  cases nes with
  | nil => rw [split_nil, refuted, pure_bind]
  | cons ne nes => rw [split_cons, refuted, pure_bind, if_neg Bool.false_ne_true]

/-- A disequality whose first side has a solution. -/
theorem split_below {ne below above : LinearForm} {nes les : List LinearForm} {count n : Nat}
    (consistent : equations limits eqs les = pure true) (room : count + 1 ≤ limits.maxCaseSplits)
    (lower : ne.addConst? 1 = some below)
    (upper : (ne.scale? (-1)).bind (·.addConst? 1) = some above)
    (rest : (split limits eqs nes (les ++ [below])).run (count + 1) = pure (true, n)) :
    (split limits eqs (ne :: nes) les).run count = pure (true, n) := by
  rw [split_cons, consistent, pure_bind, if_pos rfl, if_neg (by omega), lower, upper]
  simp only [orOverflow, pure_bind, rest, if_true]

theorem split_yields (values : Nat → Int) {les : List LinearForm} {count : Nat}
    (increasingEqs : Increasing eqs)
    (increasingNes : Increasing nes) (increasingLes : Increasing les) (zero : Zero values eqs)
    (nonzero : ∀ e ∈ nes, e.eval values ≠ 0) (le : AtMostZero values les) :
    Yields ((split limits eqs nes les).run count) fun r => r.1 = true := by
  induction nes generalizing les count with
  | nil =>
    rw [split_nil, Outcome.yields_bind]
    exact (equations_yields increasingEqs increasingLes zero le).mono
      fun answer consistent => Outcome.yields_pure.mpr consistent
  | cons ne nes ih =>
    obtain ⟨here, rest⟩ := List.forall_mem_cons.mp nonzero
    obtain ⟨increasing, increasingNes⟩ := List.forall_mem_cons.mp increasingNes
    rw [split_cons, Outcome.yields_bind]
    refine (equations_yields increasingEqs increasingLes zero le).mono ?_
    rintro - rfl
    rw [if_pos rfl]
    split
    · exact Outcome.yields_throw
    refine yields_orOverflow fun below below? => yields_orOverflow fun above above? => ?_
    rw [Outcome.yields_bind]
    have extended {e : LinearForm} (increasing : e.Increasing) : Increasing (les ++ [e]) :=
      List.forall_mem_append.mpr ⟨increasingLes, by simpa using increasing⟩
    have extendedLe {e : LinearForm} (small : e.eval values ≤ 0) : AtMostZero values (les ++ [e]) :=
      atMostZero_append.mpr ⟨le, by simpa [AtMostZero] using small⟩
    -- The solution is on one side, and that side is not refuted.
    rcases Int.lt_or_gt_of_ne here with negative | positive
    · have small : below.eval values ≤ 0 := by
        rw [(LinearForm.of_addConst? below?).1]
        omega
      refine (ih increasingNes (extended (increasing.addConst? below?)) rest
        (extendedLe small)).mono ?_
      rintro ⟨answer, count'⟩ rfl
      exact Outcome.yields_pure.mpr rfl
    · obtain ⟨scaled, scaled?, added⟩ := Option.bind_eq_some_iff.mp above?
      have small : above.eval values ≤ 0 := by
        rw [(LinearForm.of_addConst? added).1, LinearForm.eval_scale? scaled?]
        omega
      have increasingAbove := (increasing.scale? scaled?).addConst? added
      rintro ⟨answer, count'⟩ -
      cases answer with
      | true => exact Outcome.yields_pure.mpr rfl
      | false => exact ih increasingNes (extended increasingAbove) rest (extendedLe small)

end Elimination

/-- The constraints of each kind are taken together. -/
theorem Constraint.areConsistent_parts (cs : List Constraint) : ∃ eqs nes les : List LinearForm,
    (∀ limits, areConsistent limits cs = (do
      let (answer, _) ← (Elimination.split limits eqs nes les).run 0
      return answer)) ∧
    (∀ e, e ∈ eqs ↔ .zero e ∈ cs) ∧ (∀ e, e ∈ nes ↔ .nonzero e ∈ cs) ∧
      ∀ e, e ∈ les ↔ .atMostZero e ∈ cs := by
  have part {k : Constraint → Option LinearForm} {form : LinearForm → Constraint}
      (only : ∀ c e, k c = some e ↔ c = form e) (e : LinearForm) :
      e ∈ cs.filterMap k ↔ form e ∈ cs := by
    rw [List.mem_filterMap]
    constructor
    · rintro ⟨c, mem, found⟩
      exact (only c e).mp found ▸ mem
    · exact fun mem => ⟨form e, mem, (only _ e).mpr rfl⟩
  refine ⟨_, _, _, fun limits => rfl, fun e => List.mem_reverse.trans (part ?_ e), part ?_, part ?_⟩
  · rintro (_ | _ | _) e <;> simp
  · rintro (_ | _ | _) e <;> simp
  · rintro (_ | _ | _) e <;> simp

theorem Constraint.areConsistent_yields {values : Nat → Int} {limits : SolverLimits}
    {cs : List Constraint} (increasing : ∀ c ∈ cs, c.form.Increasing)
    (holds : ∀ c ∈ cs, c.Holds values) :
    Yields (Constraint.areConsistent limits cs) fun answer => answer = true := by
  obtain ⟨eqs, nes, les, consistent, zero, nonzero, atMostZero⟩ := areConsistent_parts cs
  rw [consistent, Outcome.yields_bind]
  refine (Elimination.split_yields values (fun e mem => increasing _ ((zero e).mp mem))
    (fun e mem => increasing _ ((nonzero e).mp mem))
    (fun e mem => increasing _ ((atMostZero e).mp mem)) (fun e mem => holds _ ((zero e).mp mem))
    (fun e mem => holds _ ((nonzero e).mp mem))
    fun e mem => holds _ ((atMostZero e).mp mem)).mono ?_
  rintro ⟨answer, count⟩ rfl
  exact Outcome.yields_pure.mpr rfl

theorem Constraint.areConsistent_zero {limits : SolverLimits} {eqs : List LinearForm} {answer : Bool}
    (solved : Elimination.equations limits eqs.reverse [] = pure answer) :
    areConsistent limits (eqs.map .zero) = pure answer := by
  have kept (k : Constraint → Option LinearForm) (all : ∀ e, k (.zero e) = some e) :
      (eqs.map .zero).filterMap k = eqs := by
    rw [List.filterMap_map, show k ∘ .zero = some from funext all, List.filterMap_some]
  have dropped (k : Constraint → Option LinearForm) (none : ∀ e, k (.zero e) = none) :
      (eqs.map .zero).filterMap k = [] := by
    simp [none]
  rw [areConsistent, kept _ fun _ => rfl, dropped _ fun _ => rfl, dropped _ fun _ => rfl,
    Elimination.split_nil, solved]
  rfl

end ProgramAnalysis
