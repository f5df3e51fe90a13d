import ProgramAnalysis.Linear.Elimination
import ProgramAnalysis.Region
import ProgramAnalysis.Solver.Skeleton

/-!
Queries about formulas. A formula is unsatisfiable if the arithmetic literals of every path of its
skeleton contradict each other. The answer "unsatisfiable" is exact, the answer "satisfiable" may
ignore that solutions have to be integers. The solver counts its queries, but not the time they take.
-/
namespace ProgramAnalysis

structure QueryCounters where
  unsat : Nat := 0
  implies : Nat := 0
  allSat : Nat := 0
  proverUnsat : Nat := 0
  environments : Nat := 0
  /-- Paths whose literals were checked. -/
  theoryChecks : Nat := 0
  deriving DecidableEq, Repr

namespace QueryCounters

def total (c : QueryCounters) : Nat := c.unsat + c.implies + c.allSat + c.proverUnsat

end QueryCounters

structure Solver where
  limits : SolverLimits
  counters : QueryCounters := {}

abbrev SolverM := Attempt SolverFailure Solver

namespace Solver

def count (f : QueryCounters → QueryCounters) : SolverM Unit :=
  modify fun s => { s with counters := f s.counters }

/-- Whether the arithmetic literals of a path have a common solution. -/
def checkPath (k : Skeleton) (path : List Int) : SolverM Bool := do
  count fun c => { c with theoryChecks := c.theoryChecks + 1 }
  let limits := (← get).limits
  match (Constraint.ofLiterals (k.literals path)).run [] with
  | .error e => throw e
  | .ok (constraints, _) =>
    match ← Attempt.lift (liftM (Constraint.areConsistent limits constraints).run) with
    | .ok answer => return answer
    | .error e => throw e

/-- Whether no path of the skeleton is consistent. -/
def refute (f : Formula) : SolverM Bool := do
  let k ← Attempt.lift (liftM (Skeleton.ofFormula f))
  return !(← k.diagram.anyPath (checkPath k) k.root [])

def isUnsat (f : Formula) : SolverM Bool := do
  count fun c => { c with unsat := c.unsat + 1 }
  refute f

def implies (a b : Formula) : SolverM Bool := do
  count fun c => { c with implies := c.implies + 1 }
  refute (.conj [a, b.negate])

end Solver

/-- A stack of assertions, the oldest first. -/
structure Prover where
  stack : List Formula := []

namespace Prover

def start : SolverM Prover := do
  Solver.count fun c => { c with environments := c.environments + 1 }
  return {}

def push (p : Prover) (f : Formula) : Prover := ⟨p.stack ++ [f]⟩

def pop (p : Prover) : Except Violation Prover :=
  if p.stack.isEmpty then .error .emptyProverStack else .ok ⟨p.stack.dropLast⟩

def conjunction (p : Prover) : Formula := .conj p.stack

def isUnsat (p : Prover) : SolverM Bool := do
  Solver.count fun c => { c with proverUnsat := c.proverUnsat + 1 }
  Solver.refute p.conjunction

/-- All models of the stack, seen through some of its propositional variables. -/
structure AllSat where
  region : Region
  /-- How many consistent paths there are. -/
  count : Nat

abbrev RegionSolverM := Attempt SolverFailure (Solver × Diagram)

namespace RegionSolverM

def solver {α : Type} (act : SolverM α) : RegionSolverM α :=
  Attempt.zoom id Prod.mk act

def regions {α : Type} (act : DiagramM α) : RegionSolverM α :=
  Attempt.lift (Checked.zoom (fun s => (s.2, s.1)) (fun d s => (s, d)) act)

end RegionSolverM

/-- Collects the consistent paths in the order of the skeleton. A path gives the literals of the
important variables on it; a variable that is paired with two regions stands for the later one. -/
def allSat (p : Prover) (important : List (Formula × Region)) : RegionSolverM AllSat := do
  RegionSolverM.solver (Solver.count fun c => { c with allSat := c.allSat + 1 })
  let k ← Attempt.lift (liftM (Skeleton.ofFormula p.conjunction))
  let projection := (important.filterMap fun (f, r) => (k.var? f).map (·, r)).reverse
  let collect (path : List Int) : StateT AllSat RegionSolverM Bool := do
    if ← liftM (RegionSolverM.solver (Solver.checkPath k path)) then
      let literals := path.filterMap fun lit =>
        (projection.lookup lit.natAbs).map fun r => (r, decide (0 < lit))
      let cube ← liftM (RegionSolverM.regions (Region.cube literals))
      let region ← liftM (RegionSolverM.regions ((← get).region.or cube))
      modify fun s => ⟨region, s.count + 1⟩
    return false
  let (_, result) ← (k.diagram.anyPath collect k.root []).run ⟨.bottom, 0⟩
  return result

end Prover

end ProgramAnalysis
