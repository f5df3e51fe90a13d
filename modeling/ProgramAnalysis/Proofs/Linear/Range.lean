import ProgramAnalysis.Proofs.Linear.Elimination

/-! Where the reasoning about constraints leaves the range. Every operation on numbers reports an
overflow as a failure but two: the absolute value of a coefficient and the opposite of a constant that
is divided. Both are undefined for the smallest number only, so the reasoning breaks off only where it
comes to a constraint with that number. -/
namespace ProgramAnalysis

open Outcome (Ensures)

namespace LinearForm

variable {e : LinearForm} {v : Violation}

/-- A coefficient has no absolute value. -/
def HasLeast (e : LinearForm) : Prop := ∃ x, (x, -Machine.bound128) ∈ e.coeffs

theorem hasLeast_of_gcd (broken : e.gcd = .error v) : v = .outOfRange ∧ e.HasLeast := by
  unfold gcd at broken
  split at broken
  · rename_i least
    obtain ⟨⟨x, c⟩, mem, same⟩ := List.any_eq_true.mp least
    obtain rfl : c = -Machine.bound128 := by simpa using same
    cases broken
    exact ⟨rfl, x, mem⟩
  · cases broken

end LinearForm

namespace Constraint

/-- Dividing the coefficients by their greatest common divisor is not defined: one of them has no
absolute value, or the constant of an inequality has no opposite and would be divided. -/
def Unguarded : Constraint → Prop
  | .zero e => e.HasLeast
  | .atMostZero e => e.HasLeast ∨ e.constant = -Machine.bound128 ∧ e.coeffs ≠ [] ∧
      ∃ g : Nat, 1 < g ∧ ∀ p ∈ e.coeffs, (g : Int) ∣ p.2
  | .nonzero _ => False

/-- The constraints that the reasoning comes to. An equation that has a variable with the coefficient 1
or -1 is solved for it, and every equation stands for two inequalities. A disequality is given up for
one of its sides. Inequalities are added where a variable drops out, and tightened. -/
inductive Arises (cs : List Constraint) : Constraint → Prop where
  | given {c : Constraint} : c ∈ cs → Arises cs c
  | less {e e' : LinearForm} : Arises cs (.nonzero e) → e.addConst? 1 = some e' →
    Arises cs (.atMostZero e')
  | greater {e m e' : LinearForm} : Arises cs (.nonzero e) → e.scale? (-1) = some m →
    m.addConst? 1 = some e' → Arises cs (.atMostZero e')
  | atMost {e : LinearForm} : Arises cs (.zero e) → Arises cs (.atMostZero e)
  | atLeast {e e' : LinearForm} : Arises cs (.zero e) → e.scale? (-1) = some e' →
    Arises cs (.atMostZero e')
  | solveZero {s e e' r : LinearForm} {x : Nat} {c : Int} : Arises cs (.zero s) →
    s.unit? = some (x, c) → (s.erase x).scale? (-c) = some r → Arises cs (.zero e) →
    LinearForm.substitute? x r e = some e' → Arises cs (.zero e')
  | solveAtMostZero {s e e' r : LinearForm} {x : Nat} {c : Int} : Arises cs (.zero s) →
    s.unit? = some (x, c) → (s.erase x).scale? (-c) = some r → Arises cs (.atMostZero e) →
    LinearForm.substitute? x r e = some e' → Arises cs (.atMostZero e')
  | combine {u l e : LinearForm} {x : Nat} : Arises cs (.atMostZero u) → Arises cs (.atMostZero l) →
    0 < u.coeff x → l.coeff x < 0 → Elimination.combine x u l = some e → Arises cs (.atMostZero e)
  | tighten {e e' : LinearForm} : Arises cs (.atMostZero e) →
    Elimination.tighten? e = .ok (some e') → Arises cs (.atMostZero e')

/-- The reasoning came to a constraint that it has no guard for. -/
def Breaks (cs : List Constraint) (v : Violation) : Prop :=
  v = .outOfRange ∧ ∃ c, Arises cs c ∧ c.Unguarded

end Constraint

namespace Elimination

open Constraint (Arises Breaks)

variable {limits : SolverLimits} {cs : List Constraint} {v : Violation} {e : LinearForm}
  {es eqs nes les : List LinearForm} {x : Nat}

theorem ensures_orOverflow {α β : Type} {a : Option α} {f : α → Reasoning β}
    {bad : Violation → Prop} {good : β → Prop}
    (step : ∀ a', a = some a' → Ensures (f a') bad good) : Ensures (orOverflow a >>= f) bad good := by
  rw [Outcome.ensures_bind]
  cases a with
  | none => exact Outcome.ensures_throw
  | some a => exact Outcome.ensures_pure.mpr (step a rfl)

theorem unguarded_of_tighten? (broken : tighten? e = .error v) :
    v = .outOfRange ∧ (Constraint.atMostZero e).Unguarded := by
  unfold tighten? at broken
  cases divisor : e.gcd with
  | error w =>
    obtain ⟨rfl, least⟩ := LinearForm.hasLeast_of_gcd divisor
    simp only [divisor, bind, Except.bind] at broken
    cases broken
    exact ⟨rfl, .inl least⟩
  | ok g =>
    simp only [divisor, bind, Except.bind, pure, Except.pure] at broken
    split at broken
    · cases broken
    · split at broken
      · cases broken
      · split at broken
        · rename_i nonzero notOne least
          cases broken
          have some : e.coeffs ≠ [] := by
            intro none
            cases divisor.symm.trans (LinearForm.gcd_of_nil none)
            exact nonzero rfl
          exact ⟨rfl, .inr ⟨least, some, g, by omega, LinearForm.dvd_of_gcd divisor⟩⟩
        · cases broken

theorem tighten?_breaks (arises : Arises cs (.atMostZero e)) (broken : tighten? e = .error v) :
    Breaks cs v := by
  obtain ⟨rfl, unguarded⟩ := unguarded_of_tighten? broken
  exact ⟨rfl, _, arises, unguarded⟩

def Inequalities (cs : List Constraint) (es : List LinearForm) : Prop :=
  ∀ e ∈ es, Arises cs (.atMostZero e)

theorem tightenAll_arises (arise : Inequalities cs es) :
    (∀ v, tightenAll es = .error v → Breaks cs v) ∧
      ∀ es', tightenAll es = .ok (some es') → Inequalities cs es' := by
  induction es with
  | nil => simp [tightenAll, Inequalities, pure, Except.pure]
  | cons e es ih =>
    obtain ⟨here, rest⟩ := List.forall_mem_cons.mp arise
    obtain ⟨breaks, others⟩ := ih rest
    rw [tightenAll]
    cases tight : tighten? e with
    | error w => simpa [bind, Except.bind] using tighten?_breaks here tight
    | ok r =>
      cases r with
      | none => exact ⟨breaks, others⟩
      | some e' =>
        have arises := here.tighten tight
        simp only [bind, Except.bind, pure, Except.pure]
        split
        · simp
        · cases tail : tightenAll es with
          | error w => simpa using breaks w tail
          | ok r =>
            suffices ∀ tl, r = some tl → Inequalities cs (e' :: tl) by simpa
            rintro tl rfl
            exact List.forall_mem_cons.mpr ⟨arises, others tl tail⟩

theorem combineAll_ensures {pairs : List (LinearForm × LinearForm)} {made : List LinearForm}
    (bounds : ∀ p ∈ pairs, 0 < p.1.coeff x ∧ p.2.coeff x < 0 ∧ Arises cs (.atMostZero p.1) ∧
      Arises cs (.atMostZero p.2)) (arise : Inequalities cs made) :
    Ensures (combineAll x pairs made) (Breaks cs) fun answer =>
      ∀ made', answer = some made' → Inequalities cs made' := by
  induction pairs generalizing made with
  | nil =>
    apply Outcome.ensures_pure.mpr
    rintro _ ⟨⟩
    exact arise
  | cons p pairs ih =>
    obtain ⟨upper, lower⟩ := p
    obtain ⟨⟨above, below, up, low⟩, rest⟩ := List.forall_mem_cons.mp bounds
    rw [combineAll]
    refine ensures_orOverflow fun e combined => ?_
    have arises := up.combine low above below combined
    rw [Outcome.ensures_bind, Outcome.ensures_liftM]
    refine ⟨fun v => tighten?_breaks arises, fun r tight => ?_⟩
    cases r with
    | none => exact ih rest arise
    | some e' =>
      dsimp only
      split
      · apply Outcome.ensures_pure.mpr
        intro made' none
        cases none
      · exact ih rest (List.forall_mem_cons.mpr ⟨arises.tighten tight, arise⟩)

theorem eliminate_ensures (xs : List Nat) {es : List LinearForm} (arise : Inequalities cs es) :
    Ensures (eliminate limits xs es) (Breaks cs) fun _ => True := by
  rw [eliminate]
  split
  · exact Outcome.ensures_pure.mpr trivial
  · rename_i x found
    obtain ⟨pending, shorter⟩ := pending_of_cheapest? found
    rw [dif_pos pending, Outcome.ensures_bind]
    refine (combineAll_ensures ?_ (by simp [Inequalities])).mono ?_
    · intro p mem
      obtain ⟨⟨memU, above⟩, memL, below⟩ := mem_pairs.mp mem
      exact ⟨above, below, arise _ memU, arise _ memL⟩
    · intro answer arises
      cases answer with
      | none => exact Outcome.ensures_pure.mpr trivial
      | some made =>
        dsimp only
        split
        · exact Outcome.ensures_throw
        · exact eliminate_ensures (xs.erase x)
            (forall_mem_remaining (fun e mem _ => arise e mem) (arises made rfl))
termination_by xs.length

theorem inequalities_ensures (arise : Inequalities cs les) :
    Ensures (inequalities limits les) (Breaks cs) fun _ => True := by
  obtain ⟨breaks, arises⟩ := tightenAll_arises arise
  unfold inequalities
  rw [Outcome.ensures_bind, Outcome.ensures_liftM]
  refine ⟨breaks, fun answer tightened => ?_⟩
  cases answer with
  | none => exact Outcome.ensures_pure.mpr trivial
  | some es => exact eliminate_ensures _ fun e mem => arises es tightened e (LinearForm.mem_sorted.mp mem)

theorem equations_ensures {eqs les : List LinearForm} (zero : ∀ e ∈ eqs, Arises cs (.zero e))
    (arise : Inequalities cs les) :
    Ensures (equations limits eqs les) (Breaks cs) fun _ => True := by
  cases eqs with
  | nil =>
    rw [equations]
    exact inequalities_ensures arise
  | cons e eqs =>
    obtain ⟨here, rest⟩ := List.forall_mem_cons.mp zero
    rw [equations_cons, Outcome.ensures_bind, Outcome.ensures_liftM]
    refine ⟨fun v broken => ?_, fun g divisor => ?_⟩
    · obtain ⟨rfl, least⟩ := LinearForm.hasLeast_of_gcd broken
      exact ⟨rfl, _, here, least⟩
    split
    · split
      · exact Outcome.ensures_pure.mpr trivial
      · exact equations_ensures rest arise
    split
    · exact Outcome.ensures_pure.mpr trivial
    split
    · rename_i x c unit
      refine ensures_orOverflow fun r solved => ?_
      refine ensures_orOverflow fun eqs' result => ensures_orOverflow fun les' resultLes => ?_
      -- The equation is used up, so fewer are left although all of them changed.
      have shorter := length_mapM result
      apply equations_ensures
      · intro e' mem
        obtain ⟨d, old, substituted⟩ := exists_of_mem_mapM result mem
        exact here.solveZero unit solved (rest d old) substituted
      · intro e' mem
        obtain ⟨d, old, substituted⟩ := exists_of_mem_mapM resultLes mem
        exact here.solveAtMostZero unit solved (arise d old) substituted
    · refine ensures_orOverflow fun opposite scaled => ?_
      refine equations_ensures rest (List.forall_mem_append.mpr ⟨arise, ?_⟩)
      simpa using ⟨here.atMost, here.atLeast scaled⟩
termination_by eqs.length
decreasing_by all_goals (subst_vars; simp only [List.length_cons]; omega)

theorem split_ensures {les : List LinearForm} {count : Nat} (zero : ∀ e ∈ eqs, Arises cs (.zero e))
    (nonzero : ∀ e ∈ nes, Arises cs (.nonzero e)) (arise : Inequalities cs les) :
    Ensures ((split limits eqs nes les).run count) (Breaks cs) fun _ => True := by
  induction nes generalizing les count with
  | nil =>
    rw [split_nil, Outcome.ensures_bind]
    exact (equations_ensures zero arise).mono fun answer _ => Outcome.ensures_pure.mpr trivial
  | cons ne nes ih =>
    obtain ⟨here, rest⟩ := List.forall_mem_cons.mp nonzero
    have extended {e : LinearForm} (arises : Arises cs (.atMostZero e)) : Inequalities cs (les ++ [e]) :=
      List.forall_mem_append.mpr ⟨arise, by simpa using arises⟩
    rw [split_cons, Outcome.ensures_bind]
    refine (equations_ensures zero arise).mono fun answer _ => ?_
    cases answer with
    | false => exact Outcome.ensures_pure.mpr trivial
    | true =>
      rw [if_pos rfl]
      split
      · exact Outcome.ensures_throw
      refine ensures_orOverflow fun below below? => ensures_orOverflow fun above above? => ?_
      obtain ⟨scaled, scaled?, added⟩ := Option.bind_eq_some_iff.mp above?
      rw [Outcome.ensures_bind]
      refine (ih rest (extended (here.less below?))).mono ?_
      rintro ⟨answer, count'⟩ -
      cases answer with
      | true => exact Outcome.ensures_pure.mpr trivial
      | false => exact ih rest (extended (here.greater scaled? added))

end Elimination

/-- The reasoning about constraints breaks off only where it comes to the smallest number. -/
theorem Constraint.areConsistent_ensures (limits : SolverLimits) (cs : List Constraint) :
    Ensures (areConsistent limits cs) (Breaks cs) fun _ => True := by
  obtain ⟨eqs, nes, les, consistent, zero, nonzero, atMostZero⟩ := areConsistent_parts cs
  rw [consistent, Outcome.ensures_bind]
  refine (Elimination.split_ensures (fun e mem => .given ((zero e).mp mem))
    (fun e mem => .given ((nonzero e).mp mem)) fun e mem => .given ((atMostZero e).mp mem)).mono ?_
  rintro ⟨answer, count⟩ -
  exact Outcome.ensures_pure.mpr trivial

end ProgramAnalysis
