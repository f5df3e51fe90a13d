import ProgramAnalysis.Proofs.Abstraction.PathCoverage
import ProgramAnalysis.Proofs.Abstraction.Sound

/-! Coverage loses no state: what is covered by an abstraction is in it, what is covered by a path has a
model at the end of that path, and an infeasible path has no model. -/
namespace ProgramAnalysis

open Attempt (Ensures)
open Solver (not_refuted)

namespace Abstractor

variable {a : Abstractor} {ops : Operators} {base b₁ b₂ : Abstraction} {path p q : PathFormula}

theorem covers_sound (valid : a.registry.Valid) (has₁ : a.registry.diagram.Has b₁.region.ref)
    (has₂ : a.registry.diagram.Has b₂.region.ref) :
    Ensures (covers b₁ b₂) a (fun _ => True) (fun _ _ => True) fun answer b => a.Grows b ∧
      (answer = true → ∀ m, a.registry.holdsIn ops m b₁.region = true →
        a.registry.holdsIn ops m b₂.region = true) := by
  unfold covers
  rw [regionsOnly_ensures]
  have entails := Region.entails_ensures (S := fun _ => True) (.refl valid.diagram) has₁ has₂
    fun _ _ => trivial
  refine entails.imp (fun answer d ⟨⟨grown, entails⟩, _⟩ => ?_) fun _ _ => trivial
  exact ⟨grows_withDiagram grown, fun yes m => entails.mp yes _⟩

theorem isInfeasible_sound (exact : ops.TwosComplement) (valid : a.registry.Valid)
    (continues : Continues a.registry ops base path) :
    Ensures (isInfeasible base path) a (fun _ => True) (fun _ _ => True) fun answer b =>
      a.Grows b ∧ (answer = true → ∀ m, base.instantiated.holds ops m = true →
        path.formula.holds ops m = false) := by
  unfold isInfeasible
  rw [Attempt.ensures_bind, Attempt.ensures_get]
  refine (ask_decides valid (Solver.isUnsat_decides _ _)).imp
    (fun answer b ⟨quiet, decides⟩ => ⟨quiet.toGrows, fun yes m start => ?_⟩) fun _ _ _ => trivial
  by_contra holds
  refine not_refuted exact.toIntegral ?_ (reachable_holds exact _ start
    (Bool.of_not_eq_false holds)) (decides.mp yes)
  exact (continues.within _).mono (SsaMap.words_includes_upTo _)

/-- The model that keeps every value from the end of the path on is one at the end of the other path. -/
theorem pathCovers_sound (exact : ops.TwosComplement) (valid : a.registry.Valid)
    (wellFormedP : p.WellFormed) (wellFormedQ : q.WellFormed) :
    Ensures (pathCovers p q) a (fun _ => True) (fun _ _ => True) fun answer b =>
      a.Grows b ∧ (answer = true → ∀ m s, Assignment.At m p.ssa s → p.formula.holds ops m = true →
        ∃ m', Assignment.Agrees p.ssa m m' ∧ m'.At q.ssa s ∧ q.formula.holds ops m' = true) := by
  refine (pathCovers_decides p q a).mono ?_
  rintro answer b ⟨⟨solver, counters, limits, rfl⟩, subsumed⟩
  refine ⟨⟨.refl valid, rfl, limits⟩, fun yes m s reads holds => ?_⟩
  rw [reads.eq_store]
  exact (subsumed yes).exists_model exact.toIntegral wellFormedP.positive wellFormedQ.positive
    wellFormedP.below wellFormedQ.below holds

end Abstractor

end ProgramAnalysis
