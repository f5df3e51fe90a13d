import ProgramAnalysis.Abstraction.Abstractor
import ProgramAnalysis.Formula.Atoms

/-!
When one abstraction or path covers another, and when a path is infeasible.
-/
namespace ProgramAnalysis

namespace Abstractor

/-- Whether the region of `a` is contained in that of `b`. -/
def covers (a b : Abstraction) : AbstractorM Bool := regionsOnly (a.region.entails b.region)

/-- Whether every state at the end of the path `p` that begins in `a` is in `b`. -/
def coversAfter (a : Abstraction) (p : PathFormula) (b : Abstraction) : AbstractorM Bool := do
  let f := reachable (← get).settings.formula a p
  ask (Solver.implies f (b.formula.instantiate p.ssa))

/-- Whether no path from `a` along `p` is feasible. -/
def isInfeasible (a : Abstraction) (p : PathFormula) : AbstractorM Bool := do
  ask (Solver.isUnsat (reachable (← get).settings.formula a p))

def indicesGrow (p q : SsaMap) : Bool :=
  p.indices.entries.all fun (x, i) => (q.index? x).any (i ≤ ·)

/-- Whether the path `q` covers the path `p` of the same block. -/
def pathCovers (p q : PathFormula) : AbstractorM Bool := do
  count fun c => { c with pathChecks := c.pathChecks + 1 }
  if p = q then
    count fun c => { c with equalPaths := c.equalPaths + 1 }
    return true
  if !indicesGrow p.ssa q.ssa then return false
  let m := p.merge q
  if m.left.entailsSyntactically q.formula then
    count fun c => { c with syntacticPaths := c.syntacticPaths + 1 }
    return true
  if ← ask (Solver.implies (.disj [m.left, m.right]) q.formula) then
    count fun c => { c with semanticPaths := c.semanticPaths + 1 }
    return true
  return false

end Abstractor

end ProgramAnalysis
