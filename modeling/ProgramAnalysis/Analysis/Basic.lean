import ProgramAnalysis.Analysis.Part
import ProgramAnalysis.Failure

/-!
Analyses. An analysis is a lattice of states together with the operators that explore a program:
what edges do to a state, when a new state is merged into one that was reached before, and when it
is covered. All operators may use a state `σ` that analyses share, report a failure, or break a
contract. Where an analysis depends on a precision, every operator is given one.
-/
namespace ProgramAnalysis

abbrev AnalysisM (σ : Type) := Attempt Failure σ

class Located (ε : Type) where
  point? : ε → Option Point

instance : Located LocationState := ⟨LocationState.point?⟩

/-- What the states of the other analyses on the same edge say about a state. -/
inductive Strengthening (ε : Type) where
  | unchanged
  | replaced (e : ε)
  | infeasible

namespace Strengthening

def map {ε ε' : Type} (f : ε → ε') : Strengthening ε → Strengthening ε'
  | unchanged => unchanged
  | replaced e => replaced (f e)
  | infeasible => infeasible

end Strengthening

/-- Whether a test accepts an element of a list; the elements after it are not tested. -/
def anyOf {σ ε : Type} (test : ε → AnalysisM σ Bool) : List ε → AnalysisM σ Bool
  | [] => return false
  | e :: es => do if ← test e then return true else anyOf test es

structure Analysis (σ ε π : Type) where
  name : String
  bottom : ε
  top : AnalysisM σ ε
  isBottom : ε → AnalysisM σ Bool
  le : ε → ε → AnalysisM σ Bool
  join : ε → ε → AnalysisM σ ε
  initial : Point → AnalysisM σ ε
  successors : ε → π → Edge → AnalysisM σ (List ε)
  strengthen : ε → List Part → Edge → π → AnalysisM σ (Strengthening ε) :=
    fun _ _ _ _ => return .unchanged
  /-- The state that takes the place of the second, reached state. -/
  merge : ε → ε → π → AnalysisM σ ε
  /-- Whether the second state covers the first. -/
  covers : ε → ε → AnalysisM σ Bool
  stop : ε → List ε → AnalysisM σ Bool := fun e reached => anyOf (covers e) reached

namespace Analysis

variable {σ ε π : Type}

def equivalent (a : Analysis σ ε π) (e f : ε) : AnalysisM σ Bool := do
  if ← a.le e f then a.le f e else return false

/-- The state of a part; no analysis is defined on the states of another. -/
def stateOf [PartKind ε] (p : Part) : AnalysisM σ ε :=
  match PartKind.ofPart? p with
  | some e => return e
  | none => Attempt.ofOutcome (ExceptT.lift (.error .illFormed))

/-- The analysis on parts of composite states. A merge that changes nothing gives the reached part
itself. -/
def onParts [PartKind ε] [BEq ε] (a : Analysis σ ε π) : Analysis σ Part π where
  name := a.name
  bottom := PartKind.toPart a.bottom
  top := PartKind.toPart <$> a.top
  isBottom p := do a.isBottom (← stateOf p)
  le p q := do a.le (← stateOf p) (← stateOf q)
  join p q := do return PartKind.toPart (← a.join (← stateOf p) (← stateOf q))
  initial x := PartKind.toPart <$> a.initial x
  successors p π edge := do return (← a.successors (← stateOf p) π edge).map PartKind.toPart
  strengthen p siblings edge π := do
    return (← a.strengthen (← stateOf p) siblings edge π).map PartKind.toPart
  merge p reached π := do
    let old : ε ← stateOf reached
    let new ← a.merge (← stateOf p) old π
    return if new == old then reached else PartKind.toPart new
  covers p q := do a.covers (← stateOf p) (← stateOf q)

end Analysis

end ProgramAnalysis
