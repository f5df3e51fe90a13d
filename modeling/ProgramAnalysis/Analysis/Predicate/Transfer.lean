import ProgramAnalysis.Abstraction.Compute
import ProgramAnalysis.Analysis.Predicate.Precision
import ProgramAnalysis.Analysis.Predicate.State
import ProgramAnalysis.PathFormula.Extend

/-!
What edges do to states of the predicate analysis. An edge inside a block extends the path; an edge
that ends a block turns the path into an abstraction and begins the next block.
-/
namespace ProgramAnalysis

namespace PredicateState

/-- The state inside a block, where the path is only checked if that is asked for. -/
def stayInside (o : BlockOptions) (a : Abstraction) (p : PathFormula) :
    AbstractorM (List PredicateState) := do
  if o.satCheck then
    if ← Abstractor.isInfeasible a p then return []
  return [.inside a p]

/-- The state at the end of a block. Without predicates the abstraction says nothing, so it is the
solver who tells whether the path is feasible. -/
def endBlock (a : Abstraction) (p : PathFormula) (ps : List Predicate) :
    AbstractorM (List PredicateState) := do
  if ps.isEmpty then
    if ← Abstractor.isInfeasible a p then return []
  let b ← Abstractor.build a p ps
  return if b.isFalse then [] else [.boundary b p.restart]

def successors (o : BlockOptions) (program : Automaton) (s : PredicateState) (π : Precision)
    (edge : Edge) : AbstractorM (List PredicateState) := do
  match s.parts? with
  | none => return []
  | some (a, p) =>
    let p ← Attempt.ofOutcome (p.extend edge)
    if o.rule.endsBlock program edge then endBlock a p (π.predicatesAt edge.target)
    else stayInside o a p

end PredicateState

end ProgramAnalysis
