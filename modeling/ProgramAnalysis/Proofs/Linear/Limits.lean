import ProgramAnalysis.Proofs.Linear.Elimination

/-! Limits of the elimination. A limit that is exceeded is a failure, and a failure ends the reasoning.
So what has an answer never exceeded a limit, and larger limits do not change what it did. -/
namespace ProgramAnalysis

/-- Everything that the smaller limits allow. -/
instance : LE SolverLimits where
  le l l' := l.maxConstraints ≤ l'.maxConstraints ∧ l.maxCaseSplits ≤ l'.maxCaseSplits

namespace Outcome

variable {ε α β : Type} {act act' : Outcome ε α}

/-- Every answer of the first computation is the answer of the second. -/
def Persists (act act' : Outcome ε α) : Prop :=
  ∀ a, act.run = .ok (.ok a) → act'.run = .ok (.ok a)

theorem persists_refl (act : Outcome ε α) : Persists act act := fun _ run => run

theorem persists_throw (e : ε) (act' : Outcome ε α) : Persists (throw e) act' := nofun

theorem Persists.bind {next next' : α → Outcome ε β} (first : Persists act act')
    (later : ∀ a, Persists (next a) (next' a)) : Persists (act >>= next) (act' >>= next') := by
  intro b run
  rw [ExceptT.run_bind] at run ⊢
  cases here : act.run with
  | error v =>
    rw [here] at run
    cases run
  | ok r =>
    rw [here] at run
    cases r with
    | error e => cases run
    | ok a =>
      rw [first a here]
      exact later a b run

end Outcome

open Outcome (Persists persists_refl persists_throw)

namespace Elimination

variable {l l' : SolverLimits}

theorem persists_orOverflow {α β : Type} {o : Option α} {next next' : α → Reasoning β}
    (later : ∀ a, o = some a → Persists (next a) (next' a)) :
    Persists (orOverflow o >>= next) (orOverflow o >>= next') := by
  cases o with
  | none => exact persists_throw _ _
  | some a => exact later a rfl

theorem eliminate_persists (le : l ≤ l') (xs : List Nat) (es : List LinearForm) :
    Persists (eliminate l xs es) (eliminate l' xs es) := by
  rw [eliminate, eliminate]
  split
  · exact persists_refl _
  rename_i x found
  obtain ⟨pending, shorter⟩ := pending_of_cheapest? found
  rw [dif_pos pending, dif_pos pending]
  apply (persists_refl _).bind
  intro made
  cases made with
  | none => exact persists_refl _
  | some made =>
    dsimp only
    split
    · exact persists_throw _ _
    · rename_i within
      have more := le.1
      rw [if_neg (by omega)]
      exact eliminate_persists le (xs.erase x) _
termination_by xs.length

theorem inequalities_persists (le : l ≤ l') (es : List LinearForm) :
    Persists (inequalities l es) (inequalities l' es) := by
  apply (persists_refl _).bind
  intro tightened
  cases tightened with
  | none => exact persists_refl _
  | some es => exact eliminate_persists le _ _

theorem equations_persists (le : l ≤ l') (eqs les : List LinearForm) :
    Persists (equations l eqs les) (equations l' eqs les) := by
  cases eqs with
  | nil =>
    rw [equations, equations]
    exact inequalities_persists le les
  | cons e eqs =>
    rw [equations_cons, equations_cons]
    apply (persists_refl _).bind
    intro g
    split
    · split
      · exact persists_refl _
      · exact equations_persists le eqs les
    split
    · exact persists_refl _
    split
    · apply persists_orOverflow
      intro replacement _
      apply persists_orOverflow
      intro eqs' substituted
      apply persists_orOverflow
      intro les' _
      have shorter := length_mapM substituted
      exact equations_persists le eqs' les'
    · apply (persists_refl _).bind
      intro opposite
      exact equations_persists le eqs _
termination_by eqs.length
decreasing_by all_goals (subst_vars; simp only [List.length_cons]; omega)

/-- The number of splits so far is the same for both limits. -/
theorem split_persists (le : l ≤ l') (eqs nes les : List LinearForm) (count : Nat) :
    Persists ((split l eqs nes les).run count) ((split l' eqs nes les).run count) := by
  induction nes generalizing les count with
  | nil =>
    rw [split_nil, split_nil]
    exact (equations_persists le eqs les).bind fun _ => persists_refl _
  | cons ne nes ih =>
    rw [split_cons, split_cons]
    apply (equations_persists le eqs les).bind
    intro solved
    split
    · split
      · exact persists_throw _ _
      rename_i within
      have more := le.2
      rw [if_neg (by omega)]
      apply (persists_refl _).bind
      intro below
      apply (persists_refl _).bind
      intro above
      apply (ih (les ++ [below]) (count + 1)).bind
      rintro ⟨answer, count'⟩
      dsimp only
      split
      · exact persists_refl _
      · exact ih (les ++ [above]) count'
    · exact persists_refl _

end Elimination

theorem Constraint.areConsistent_persists {l l' : SolverLimits} (le : l ≤ l') (cs : List Constraint) :
    Persists (areConsistent l cs) (areConsistent l' cs) :=
  (Elimination.split_persists le _ _ _ 0).bind fun _ => persists_refl _

end ProgramAnalysis
