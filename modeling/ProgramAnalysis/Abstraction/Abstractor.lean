import ProgramAnalysis.Abstraction.Basic
import ProgramAnalysis.Formula.Masks
import ProgramAnalysis.Options
import ProgramAnalysis.Predicate.Concrete
import ProgramAnalysis.Solver.Query

/-!
The state in which abstractions are computed: the predicates, the solver, the options, and what is
remembered from earlier computations. Times are not measured.
-/
namespace ProgramAnalysis

structure AbstractionCounters where
  computations : Nat := 0
  /-- Without predicates. -/
  trivial : Nat := 0
  /-- Decided by one satisfiability check. -/
  satChecks : Nat := 0
  cached : Nat := 0
  models : Nat := 0
  maxModels : Nat := 0
  pathChecks : Nat := 0
  equalPaths : Nat := 0
  syntacticPaths : Nat := 0
  semanticPaths : Nat := 0
  deriving DecidableEq, Repr

namespace AbstractionCounters

def toLines (c : AbstractionCounters) : List String :=
  [s!"Number of abstraction computations:   {c.computations}",
    s!"  Trivial (empty precision):          {c.trivial}",
    s!"  Single satisfiability check:        {c.satChecks}",
    s!"  Answered from cache:                {c.cached}",
    s!"Total models in all-SAT:              {c.models}",
    s!"Max models in one all-SAT:            {c.maxModels}",
    s!"Path formula coverage checks:         {c.pathChecks}",
    s!"  Equal path formulas:                {c.equalPaths}",
    s!"  Syntactically entailed:             {c.syntacticPaths}",
    s!"  Semantically entailed:              {c.semanticPaths}"]

end AbstractionCounters

inductive Verdict where
  | holds
  | fails
  | unknown
  deriving DecidableEq, Repr

/-- What an abstraction is computed from: a formula and the numbers of the predicates. -/
structure AbstractionQuery where
  formula : Formula
  predicates : List Nat
  deriving DecidableEq

structure AbstractionMemory where
  results : List (AbstractionQuery × Abstraction) := []
  unsatisfiable : List Formula := []
  verdicts : List ((Formula × Nat) × Verdict) := []
  /-- The user was told that the Cartesian abstraction may be imprecise. -/
  warned : Bool := false
  /-- Messages that were not read yet. -/
  warnings : List String := []
  /-- Files with their contents. -/
  dumps : List (String × String) := []

structure AbstractionSettings where
  formula : FormulaOptions
  abstraction : AbstractionOptions

structure Abstractor where
  registry : Registry
  solver : Solver
  settings : AbstractionSettings
  counters : AbstractionCounters := {}
  memory : AbstractionMemory := {}

abbrev AbstractorM := Attempt Failure Abstractor

namespace Abstractor

/-- No predicates and nothing remembered. -/
def start (o : AnalysisOptions) : Except Violation Abstractor := do
  return {
    registry := ← Registry.empty
    solver := ⟨o.limits, {}⟩
    settings := ⟨o.formula, o.abstraction⟩ }

@[inline] def registryOnly {α : Type} (act : RegistryM α) : AbstractorM α :=
  Attempt.lift (Checked.zoom
    (fun a => (a.registry, (a.solver, a.settings, a.counters, a.memory)))
    (fun r (s, o, c, m) => ⟨r, s, o, c, m⟩) act)

@[inline] def regionsOnly {α : Type} (act : DiagramM α) : AbstractorM α :=
  registryOnly (Registry.regions act)

@[inline] def solve {α : Type} (act : Prover.RegionSolverM α) : AbstractorM α :=
  Attempt.mapFailure .solver (Attempt.zoom
    (fun a => ((a.solver, a.registry.diagram),
      (a.registry.predicates, a.settings, a.counters, a.memory)))
    (fun (s, d) (ps, o, c, m) => ⟨⟨d, ps⟩, s, o, c, m⟩) act)

@[inline] def ask {α : Type} (act : SolverM α) : AbstractorM α :=
  solve (Prover.RegionSolverM.solver act)

def count (f : AbstractionCounters → AbstractionCounters) : AbstractorM Unit :=
  modify fun a => { a with counters := f a.counters }

def recordIn (f : AbstractionMemory → AbstractionMemory) : AbstractorM Unit :=
  modify fun a => { a with memory := f a.memory }

/-- The messages since the last reading, oldest first. -/
def takeWarnings : AbstractorM (List String) := do
  let warnings := (← get).memory.warnings
  recordIn fun m => { m with warnings := [] }
  return warnings

/-- A formula with the side conditions of its bit operations where they are asked for. -/
def strengthened (o : FormulaOptions) (f : Formula) : Formula :=
  if o.bitwiseAxioms ∧ f.bitwiseAxioms ≠ .bool true then .conj [f, f.bitwiseAxioms] else f

/-- What holds at the end of a path that begins in an abstraction. -/
def reachable (o : FormulaOptions) (a : Abstraction) (p : PathFormula) : Formula :=
  .conj [a.instantiated, strengthened o p.formula]

end Abstractor

end ProgramAnalysis
