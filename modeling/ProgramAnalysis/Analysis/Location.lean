import ProgramAnalysis.Program.Edge

/-!
Locations: the flat lattice of the points of a program.
-/
namespace ProgramAnalysis

inductive LocationState where
  | bottom
  | point (p : Point)
  | top
  deriving DecidableEq, Repr

namespace LocationState

def point? : LocationState → Option Point
  | .point p => some p
  | .bottom | .top => none

def le : LocationState → LocationState → Bool
  | .bottom, _ => true
  | _, .top => true
  | a, b => a = b

def join : LocationState → LocationState → LocationState
  | .bottom, b => b
  | a, .bottom => a
  | a, b => if a = b then a else .top

/-- An edge leads on from its source; from an unknown point every edge may be taken. -/
def successors (a : LocationState) (e : Edge) : List LocationState :=
  match a with
  | .point p => if p = e.source then [.point e.target] else []
  | .top => [.point e.target]
  | .bottom => []

def toText : LocationState → String
  | .bottom => "⊥"
  | .point p => p.toText
  | .top => "⊤"

def describe : LocationState → String
  | .bottom => "Bottom"
  | .point p => s!"At(NodeId({p.id}))"
  | .top => "Top"

end LocationState

end ProgramAnalysis
