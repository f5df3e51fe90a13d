import ProgramAnalysis.Analysis.Reached
import ProgramAnalysis.Program.Automaton

/-!
The worklist algorithm. A state is taken from the waitlist and its successors are computed along all
edges that leave its point. Every successor is first merged into the states that were reached at its
point, and then added unless it is covered. A run stops when nothing waits or when it has taken as
many states as it may; a later run goes on with the same reached set, also after a failure. The time
of a run is not part of its report.
-/
namespace ProgramAnalysis

structure RunCounters where
  iterations : Nat := 0
  successors : Nat := 0
  merges : Nat := 0
  covered : Nat := 0
  deriving DecidableEq, Repr

structure RunReport where
  counters : RunCounters
  size : Nat
  /-- Something waited when the run had taken as many states as it may. -/
  incomplete : Bool
  deriving DecidableEq, Repr

namespace RunReport

def toLines (r : RunReport) : List String :=
  [s!"Iterations:            {r.counters.iterations}",
    s!"Successors computed:   {r.counters.successors}",
    s!"Merges:                {r.counters.merges}",
    s!"Covered successors:    {r.counters.covered}",
    s!"Reached set size:      {r.size}",
    s!"Complete:              {!r.incomplete}"]

end RunReport

/-- The state of a run: what the analysis shares and what was reached. -/
structure Exploration (σ ε π : Type) where
  shared : σ
  reached : ReachedSet ε π

namespace Analysis

variable {σ ε π : Type} [Located ε] [BEq ε]

/-- The edges that are followed from a state; a state that is nowhere follows all edges. -/
def edgesFrom (program : Automaton) (e : ε) : List Edge :=
  match Located.point? e with
  | some x => program.leaving x
  | none => program.edges

def start (a : Analysis σ ε π) (program : Automaton) (specialized : Bool) (π₀ : π) :
    AnalysisM σ (ReachedSet ε π) := do
  return (ReachedSet.empty specialized).add (← a.initial program.entry) π₀

abbrev RunM (σ ε π : Type) := AnalysisM (Exploration σ ε π)

@[inline] def RunM.shared {α : Type} (act : AnalysisM σ α) : RunM σ ε π α :=
  Attempt.zoom (fun s => (s.shared, s.reached)) Exploration.mk act

/-- Merges a new state into the reached states of a list; counts the states that change. -/
def mergeInto (a : Analysis σ ε π) (e : ε) (π₀ : π) : List ε → RunM σ ε π Nat
  | [] => return 0
  | r :: rest => do
    let merged ← RunM.shared (a.merge e r π₀)
    if merged != r then
      let reached ← Attempt.ofOutcome (ExceptT.lift ((← get).reached.replace r merged π₀))
      modify fun s => { s with reached }
      return (← mergeInto a e π₀ rest) + 1
    else mergeInto a e π₀ rest

/-- Merges a new state, and adds it unless it is covered. -/
def absorb (a : Analysis σ ε π) (π₀ : π) (c : RunCounters) (e : ε) : RunM σ ε π RunCounters := do
  let merges ← mergeInto a e π₀ ((← get).reached.reached e)
  let c := { c with merges := c.merges + merges }
  if ← RunM.shared (a.stop e ((← get).reached.reached e)) then
    return { c with covered := c.covered + 1 }
  modify fun s => { s with reached := s.reached.add e π₀ }
  return c

def follow (a : Analysis σ ε π) (e : ε) (π₀ : π) (c : RunCounters) (edge : Edge) :
    RunM σ ε π RunCounters := do
  let next ← RunM.shared (a.successors e π₀ edge)
  next.foldlM (absorb a π₀) { c with successors := c.successors + next.length }

/-- Takes states from the waitlist, at most `limit` of them. -/
def explore (a : Analysis σ ε π) (program : Automaton) :
    (limit : Nat) → RunCounters → RunM σ ε π RunReport
  | 0, c => do
    let reached := (← get).reached
    return ⟨c, reached.size, reached.hasWaiting⟩
  | limit + 1, c => do
    let reached := (← get).reached
    match reached.pop? with
    | none => return ⟨c, reached.size, false⟩
    | some ((e, π₀), rest) =>
      modify fun s => { s with reached := rest }
      let c ← (edgesFrom program e).foldlM (follow a e π₀) { c with iterations := c.iterations + 1 }
      explore a program limit c

def run (a : Analysis σ ε π) (program : Automaton) (limit : Nat) : RunM σ ε π RunReport :=
  explore a program limit {}

def warning? (a : Analysis σ ε π) (limit : Nat) (r : RunReport) : Option String :=
  if r.incomplete then some s!"{a.name} analysis did not finish after {limit} iterations"
  else none

/-- How a run ended: its report or a failure, the states that wait then, and what was said. -/
structure RunOutcome where
  report : Except Failure RunReport
  waiting : Nat
  warnings : List String

def attempt (a : Analysis σ ε π) (program : Automaton) (said : AnalysisM σ (List String))
    (limit : Nat) : RunM σ ε π RunOutcome := do
  let report ← ExceptT.lift (a.run program limit).run
  let warnings ← RunM.shared said
  let own := match report with
    | .ok r => (a.warning? limit r).toList
    | .error _ => []
  return ⟨report, (← get).reached.waitlist.length, warnings ++ own⟩

/-- Runs from the start with one limit after another; a later run goes on where the one before it
ended. Gives the outcomes of the runs and what was reached in the end. -/
def explorations (a : Analysis σ ε π) (program : Automaton) (said : AnalysisM σ (List String))
    (specialized : Bool) (π₀ : π) (limits : List Nat) :
    AnalysisM σ (List RunOutcome × ReachedSet ε π) := do
  let reached ← a.start program specialized π₀
  Attempt.withState reached Exploration.mk (fun s => (s.shared, s.reached))
    (limits.mapM (a.attempt program said))

end Analysis

end ProgramAnalysis
