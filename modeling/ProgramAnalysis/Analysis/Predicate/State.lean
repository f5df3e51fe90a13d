import ProgramAnalysis.Abstraction.Coverage

/-!
States of the predicate analysis. Edges are taken in blocks: at the end of a block the state is an
abstraction, inside a block it is the abstraction at the start of the block and the path since then.
-/
namespace ProgramAnalysis

inductive PredicateState where
  | bottom
  /-- At the end of a block; the path is empty and carries the indices on. -/
  | boundary (a : Abstraction) (path : PathFormula)
  | inside (a : Abstraction) (path : PathFormula)
  deriving BEq

namespace PredicateState

def parts? : PredicateState → Option (Abstraction × PathFormula)
  | .bottom => none
  | .boundary a p | .inside a p => some (a, p)

def isBoundary : PredicateState → Bool
  | .boundary .. => true
  | .bottom | .inside .. => false

def initial : PredicateState := .boundary (.top .empty) .empty

def top : PredicateState := .inside (.top .empty) .empty

/-- Whether a state inside a block says nothing. -/
def isTop : PredicateState → Bool
  | .inside a p => a.isTrue && p.formula = .bool true
  | .bottom | .boundary .. => false

def isBottom : PredicateState → Bool
  | .bottom => true
  | .boundary a _ => a.isFalse
  | .inside .. => false

/-- Abstractions are compared by their regions and paths only by equality, so the solver is never
asked. -/
def le (s t : PredicateState) : AbstractorM Bool :=
  match s, t with
  | .bottom, _ => return true
  | _, .bottom => return false
  | s, t =>
    if t.isTop then return true
    else match s, t with
    | .boundary a _, .boundary b _ => Abstractor.covers a b
    | .inside a p, .inside b q => return a == b && p = q
    | _, _ => return false

/-- The larger state if there is one; two paths of one block become one path. -/
def join (s t : PredicateState) : AbstractorM PredicateState := do
  if ← le s t then return t
  if ← le t s then return s
  match s, t with
  | .inside a p, .inside b q => return if a == b then .inside b (p.disj q) else top
  | _, _ => return top

/-- Two different paths of one block become one path, all else is kept apart. -/
def merge (s reached : PredicateState) : PredicateState :=
  match s, reached with
  | .inside a p, .inside b q => if a == b && p ≠ q then .inside b (p.disj q) else reached
  | _, _ => reached

def isCovered (s reached : PredicateState) : AbstractorM Bool :=
  match s, reached with
  | .bottom, _ => return true
  | .boundary a _, .boundary b _ => Abstractor.covers a b
  | .inside a p, .inside b q => if a == b then Abstractor.pathCovers p q else return false
  | _, _ => return false

def toText : PredicateState → String
  | .bottom => "⊥"
  | .boundary a _ => s!"ABS {a.toText}"
  | .inside a p => s!"{a.toText} & {p.formula.toText}"

end PredicateState

end ProgramAnalysis
