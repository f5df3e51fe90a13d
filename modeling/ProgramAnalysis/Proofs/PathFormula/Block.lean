import ProgramAnalysis.Proofs.PathFormula.Strongest

/-! The paths of a block. They begin at common indices and only reach later ones, whether they are continued
or joined. -/
namespace ProgramAnalysis

namespace PathFormula

variable {p q : PathFormula} {s : SsaMap} {edge : Edge}

/-- A path of a block that begins at these indices. -/
structure Follows (p : PathFormula) (s : SsaMap) : Prop where
  le : s.Le p.ssa
  /-- No variable stands at an index that the path has not reached. -/
  within : p.formula.Within p.ssa.below

theorem follows_restart (p : PathFormula) : p.restart.Follows p.ssa := ⟨.refl p.ssa, trivial⟩

theorem Follows.positive (follows : p.Follows s) (positive : s.Positive) : p.ssa.Positive :=
  fun x => Nat.le_trans (positive x) (follows.le x)

theorem Follows.extend (follows : p.Follows s) (positive : s.Positive)
    (fits : ∀ e ∈ edge.action.expressions, e.Fits) :
    Outcome.Yields (p.extend edge) fun q => q.Follows s := by
  have added := extend_adds (fun e mem => (fits e mem).within) (fun b => by cases b <;> rfl)
    (follows.positive positive)
  refine added.mono fun q ⟨le, fs, inside, formula⟩ => ⟨follows.le.trans le, ?_⟩
  rw [formula]
  refine Formula.within_join (List.forall_mem_cons.mpr ⟨follows.within.mono le.below, ?_⟩)
  exact fun f mem => (inside f mem).mono (SsaMap.below_includes_upTo q.ssa)

theorem Follows.disj (followsP : p.Follows s) (followsQ : q.Follows s) (positive : s.Positive) :
    (p.disj q).Follows s := by
  have positiveP := followsP.positive positive
  have positiveQ := followsQ.positive positive
  constructor
  · exact followsP.le.trans (SsaMap.le_max_left positiveP positiveQ)
  · exact Formula.within_pair (merge_left_below positiveP positiveQ followsP.within)
      (merge_right_below positiveP positiveQ followsQ.within)

inductive InBlock (s : SsaMap) : PathFormula → Prop
  | start {p : PathFormula} (here : p.ssa = s) : InBlock s p.restart
  | extend {p q : PathFormula} {edge : Edge} (inside : InBlock s p)
      (fits : ∀ e ∈ edge.action.expressions, e.Fits)
      (extended : (p.extend edge).run = .ok (.ok q)) : InBlock s q
  | disj {p q : PathFormula} (first : InBlock s p) (second : InBlock s q) : InBlock s (p.disj q)

theorem InBlock.follows (inside : InBlock s p) (positive : s.Positive) : p.Follows s := by
  induction inside with
  | @start p here => exact here ▸ follows_restart p
  | extend _ fits extended ih => exact ih.extend positive fits _ extended
  | disj _ _ first second => exact first.disj second positive

end PathFormula

end ProgramAnalysis
