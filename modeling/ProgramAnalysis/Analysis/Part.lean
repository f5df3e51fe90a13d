import ProgramAnalysis.Analysis.Explicit.State
import ProgramAnalysis.Analysis.Location
import ProgramAnalysis.Analysis.Predicate.State
import ProgramAnalysis.Analysis.Sign.State

/-!
Parts of composite states: a state of any of the analyses.
-/
namespace ProgramAnalysis

inductive Part where
  | location (l : LocationState)
  | sign (s : SignState)
  | explicit (e : ExplicitState)
  | predicate (p : PredicateState)
  deriving BEq

class PartKind (ε : Type) where
  toPart : ε → Part
  ofPart? : Part → Option ε

instance : PartKind LocationState where
  toPart := .location
  ofPart?
    | .location l => some l
    | _ => none

instance : PartKind SignState where
  toPart := .sign
  ofPart?
    | .sign s => some s
    | _ => none

instance : PartKind ExplicitState where
  toPart := .explicit
  ofPart?
    | .explicit e => some e
    | _ => none

instance : PartKind PredicateState where
  toPart := .predicate
  ofPart?
    | .predicate p => some p
    | _ => none

namespace Part

def first? (ε : Type) [PartKind ε] (parts : List Part) : Option ε :=
  parts.findSome? PartKind.ofPart?

def point? : Part → Option Point
  | .location l => l.point?
  | .sign _ | .explicit _ | .predicate _ => none

def describe : Part → String
  | .location l => l.describe
  | .sign s => s.describe
  | .explicit e => e.describe
  | .predicate p => p.toText

def toText : Part → String
  | .location l => l.toText
  | .sign s => s.toText
  | .explicit e => e.toText
  | .predicate p => p.toText

end Part

end ProgramAnalysis
