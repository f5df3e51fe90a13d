import ProgramAnalysis.Abstraction.Coverage
import ProgramAnalysis.Proofs.Abstraction.Models
import ProgramAnalysis.Proofs.PathFormula.Block

/-! When a path covers another one of its block. There are three reasons for the answer, and one model for
all of them: from the end of the covered path on, every variable keeps its value. -/
namespace ProgramAnalysis

open Attempt (Ensures)
open Solver (not_refuted)

namespace Abstractor

variable {a b : Abstractor} {ops : Operators} {limits : SolverLimits} {m : Assignment}
  {p q : PathFormula} {s t : SsaMap}

theorem le_of_indicesGrow (grow : indicesGrow s t = true) (positive : t.Positive) : s.Le t := by
  intro x
  cases known : s.index? x with
  | none =>
    have first : s.index x = SsaMap.defaultIndex := by simp [SsaMap.index, known]
    rw [first]
    exact positive x
  | some i =>
    have mem := NameMap.mem_of_get? (show s.indices.get? x = some i from known)
    have later := List.all_eq_true.mp grow _ mem
    simp only [Option.any_eq_true, decide_eq_true_eq] at later
    obtain ⟨j, there, before⟩ := later
    simpa [SsaMap.index, known, there] using before

/-- Why a path is covered by another one. -/
inductive Subsumed (limits : SolverLimits) (p q : PathFormula) : Prop
  | equal (same : p = q)
  | shape (grow : indicesGrow p.ssa q.ssa = true)
      (entails : (p.merge q).left.entailsSyntactically q.formula = true)
  | implied (grow : indicesGrow p.ssa q.ssa = true) (refuted : Solver.Refuted limits
      (.conj [.disj [(p.merge q).left, (p.merge q).right], q.formula.negate]))

theorem pathCovers_decides (p q : PathFormula) (a : Abstractor) :
    Ensures (pathCovers p q) a (fun _ => True) (fun _ _ => True) fun answer b =>
      (∃ solver counters, solver.limits = a.solver.limits ∧
        b = { a with solver := solver, counters := counters }) ∧
      (answer = true → Subsumed a.solver.limits p q) := by
  unfold pathCovers
  rw [Attempt.ensures_bind, count_ensures]
  split
  · rename_i same
    exact ⟨⟨a.solver, _, rfl, rfl⟩, fun _ => .equal same⟩
  · split
    · exact ⟨⟨a.solver, _, rfl, rfl⟩, nofun⟩
    · rename_i fails
      have grow : indicesGrow p.ssa q.ssa = true := by simpa using fails
      dsimp only
      split
      · rename_i entails
        exact ⟨⟨a.solver, _, rfl, rfl⟩, fun _ => .shape grow entails⟩
      · rw [Attempt.ensures_bind, ask_ensures]
        refine ((Solver.implies_decides _ _ a.solver).weaken fun _ _ => trivial).imp ?_
          fun _ _ _ => trivial
        rintro answer solver ⟨limits, decides⟩
        cases answer with
        | false => exact ⟨⟨solver, _, limits, rfl⟩, nofun⟩
        | true => exact ⟨⟨solver, _, limits, rfl⟩, fun _ => .implied grow (decides.mp rfl)⟩

theorem holds_of_implied (integral : ops.Integral) (positiveP : p.ssa.Positive)
    (positiveQ : q.ssa.Positive) (withinP : p.formula.Within p.ssa.below)
    (withinQ : q.formula.Within q.ssa.below) (refuted : Solver.Refuted limits
      (.conj [.disj [(p.merge q).left, (p.merge q).right], q.formula.negate]))
    (holds : p.formula.holds ops m = true) : q.formula.holds ops (m.hold p.ssa) = true := by
  have words {f : Formula} {ssa : SsaMap} (within : f.Within ssa.below) : f.Within .words :=
    within.mono (SsaMap.words_includes_below ssa)
  have left := words (PathFormula.merge_left_below positiveP positiveQ withinP)
  have right := words (PathFormula.merge_right_below positiveP positiveQ withinQ)
  have inside : (Formula.conj [.disj [(p.merge q).left, (p.merge q).right],
      q.formula.negate]).Within .words :=
    Formula.within_pair (Formula.within_pair left right) (Formula.within_negate (words withinQ))
  by_contra fails
  refine not_refuted (m := m.hold p.ssa) integral inside ?_ refuted
  rw [Formula.holds_conj]
  refine List.forall_mem_cons.mpr ⟨Formula.holds_disj.mpr ⟨_, List.mem_cons_self, ?_⟩, ?_⟩
  · exact PathFormula.merge_left_holds withinP holds
  · simpa using fails

/-- Every model of a covered path gives one of the covering path. Up to the indices of the covered path
the values are the same, and both describe one store at their ends. -/
theorem Subsumed.exists_model (subsumed : Subsumed limits p q) (integral : ops.Integral)
    (positiveP : p.ssa.Positive) (positiveQ : q.ssa.Positive)
    (withinP : p.formula.Within p.ssa.below) (withinQ : q.formula.Within q.ssa.below)
    (holds : p.formula.holds ops m = true) : ∃ m', Assignment.Agrees p.ssa m m' ∧
      m'.At q.ssa (m.store p.ssa) ∧ q.formula.holds ops m' = true := by
  -- No index of `q` lies below one of `p`, so what is held is what `q` reads at its end.
  have held (grow : indicesGrow p.ssa q.ssa = true) :
      (m.hold p.ssa).At q.ssa (m.store p.ssa) :=
    (m.at_store p.ssa).hold (le_of_indicesGrow grow positiveQ)
  cases subsumed with
  | equal same =>
    subst same
    exact ⟨m, .refl _ m, m.at_store _, holds⟩
  | shape grow entails =>
    refine ⟨m.hold p.ssa, m.agrees_hold p.ssa, held grow, ?_⟩
    exact Formula.holds_of_entailsSyntactically entails
      (PathFormula.merge_left_holds withinP holds)
  | implied grow refuted =>
    refine ⟨m.hold p.ssa, m.agrees_hold p.ssa, held grow, ?_⟩
    exact holds_of_implied integral positiveP positiveQ withinP withinQ refuted holds

/-- A path that is found covered has no model that is lost: the covering path has one with the same values
at the beginning of the block and the same store at its end. All that is asked of the paths is what those
of a block have in common. -/
theorem exists_model_of_pathCovers (integral : ops.Integral) (positive : s.Positive) :
    (∀ p, PathFormula.InBlock s p → p.Follows s) ∧
    ∀ {a b : Abstractor} {p q : PathFormula} {m : Assignment}, p.Follows s → q.Follows s →
      (pathCovers p q).run a = .ok (.ok true, b) → p.formula.holds ops m = true →
      ∃ m', q.formula.holds ops m' = true ∧ m'.store s = m.store s ∧
        m'.store q.ssa = m.store p.ssa := by
  constructor
  · exact fun p inside => inside.follows positive
  · intro a b p q m followsP followsQ covered holds
    have subsumed := ((pathCovers_decides p q a).of_ok covered).2 rfl
    obtain ⟨m', agrees, reads, holds'⟩ := subsumed.exists_model integral
      (followsP.positive positive) (followsQ.positive positive) followsP.within followsQ.within holds
    refine ⟨m', holds', funext fun x => ?_, reads.eq_store.symm⟩
    exact (agrees ⟨x, some (s.index x)⟩ ⟨_, rfl, followsP.le x⟩).symm

def assigning (x : String) (e : Expr) : Edge := ⟨⟨0⟩, ⟨1⟩, .assign (.var x) e⟩

theorem assigning_fits {x : String} {e : Expr} (fits : e.Fits) :
    ∀ e' ∈ (assigning x e).action.expressions, e'.Fits := by
  intro e' mem
  rcases List.mem_cons.mp mem with rfl | mem
  · trivial
  · exact List.mem_singleton.mp mem ▸ fits

/-- The path `y = 1` is covered by its continuation with `x = x`, whose equation is the one that keeps
the value of `x`. -/
theorem exists_model_of_pathCovers_copied : ∃ (a b : Abstractor) (p q : PathFormula),
    (PathFormula.empty.extend (assigning "y" (.const 1))).run = .ok (.ok p) ∧
    (p.extend (assigning "x" (.var "x"))).run = .ok (.ok q) ∧
    (pathCovers p q).run a = .ok (.ok true, b) ∧
    ∃ m, q.formula.holds Operators.standard m = true ∧ m.store q.ssa = fun _ => 1 := by
  obtain ⟨d, -⟩ := Diagram.ofBits_ok (show 8 ≤ 31 by decide)
  let a : Abstractor := ⟨⟨d, []⟩, ⟨{}, {}⟩, ⟨{}, {}⟩, {}, {}⟩
  let m : Assignment := ⟨fun _ => 1, fun _ => false⟩
  have runs : ∃ (b : Abstractor) (p q : PathFormula),
      (PathFormula.empty.extend (assigning "y" (.const 1))).run = .ok (.ok p) ∧
      (p.extend (assigning "x" (.var "x"))).run = .ok (.ok q) ∧
      (pathCovers p q).run a = .ok (.ok true, b) ∧ p.formula.holds Operators.standard m = true :=
    ⟨_, _, _, rfl, rfl, rfl, rfl⟩
  obtain ⟨b, p, q, first, second, covered, holds⟩ := runs
  have one : (Expr.const 1).Fits := rfl
  have read : (Expr.var "x").Fits := trivial
  have start : PathFormula.InBlock .empty PathFormula.empty := .start (p := .empty) rfl
  have inside : PathFormula.InBlock .empty p := start.extend (assigning_fits one) first
  obtain ⟨follows, model⟩ :=
    exists_model_of_pathCovers Operators.integral_standard SsaMap.positive_empty
  obtain ⟨m', holds', -, store⟩ := model (follows p inside)
    (follows q (inside.extend (assigning_fits read) second)) covered holds
  exact ⟨a, b, p, q, first, second, covered, m', holds', store⟩

end Abstractor

end ProgramAnalysis
