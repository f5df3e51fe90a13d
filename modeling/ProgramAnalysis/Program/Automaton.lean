import ProgramAnalysis.Program.Edge
import ProgramAnalysis.Violation

/-!
Control-flow automata. An automaton grows by points, functions, loop heads and edges; the first
function is where the program starts. Every edge connects points of the automaton.
-/
namespace ProgramAnalysis

structure Automaton where
  /-- The number of points; they are numbered from 0. -/
  points : Nat
  edges : List Edge
  entries : NameMap Point
  loopHeads : List Point
  entry : Point
  edges_inside : ∀ e ∈ edges, e.source.id < points ∧ e.target.id < points

namespace Automaton

def start (main : String) : Automaton where
  points := 1
  edges := []
  entries := NameMap.empty.insert main ⟨0⟩
  loopHeads := []
  entry := ⟨0⟩
  edges_inside := by simp

def addPoint (a : Automaton) : Point × Automaton :=
  (⟨a.points⟩, { a with
    points := a.points + 1
    edges_inside := fun e h => by
      have := a.edges_inside e h
      omega })

/-- The entry point of a function; a function that is not known yet gets a new point. -/
def addFunction (a : Automaton) (name : String) : Point × Automaton :=
  match a.entries.get? name with
  | some p => (p, a)
  | none =>
    let (p, a) := a.addPoint
    (p, { a with entries := a.entries.insert name p })

def addLoopHead (a : Automaton) (p : Point) : Automaton :=
  { a with loopHeads := p :: a.loopHeads }

def addEdge (a : Automaton) (e : Edge) : Except Violation Automaton :=
  if h : e.source.id < a.points ∧ e.target.id < a.points then
    .ok { a with
      edges := a.edges ++ [e]
      edges_inside := fun e' h' => by
        rcases List.mem_append.mp h' with h' | h'
        · exact a.edges_inside e' h'
        · rw [List.mem_singleton.mp h']
          exact h }
  else .error (.unknownNode e.source.id e.target.id)

/-- The edges that leave a point, in the order they were added. -/
def leaving (a : Automaton) (p : Point) : List Edge :=
  a.edges.filter fun e => e.source = p

def isLoopHead (a : Automaton) (p : Point) : Bool := a.loopHeads.contains p

def isFunctionEntry (a : Automaton) (p : Point) : Bool := a.entries.values.contains p

end Automaton

/-- Which edges end a block. -/
inductive BlockRule where
  | everyEdge
  | loopHeads
  /-- Loop heads, function entries and returns to a caller. -/
  | functionsAndLoops
  deriving DecidableEq, Repr

namespace BlockRule

def endsBlock (b : BlockRule) (a : Automaton) (e : Edge) : Bool :=
  match b with
  | everyEdge => true
  | loopHeads => a.isLoopHead e.target
  | functionsAndLoops =>
    a.isLoopHead e.target || a.isFunctionEntry e.target ||
      match e.action with
      | .resume .. => true
      | _ => false

end BlockRule

end ProgramAnalysis
