import ProgramAnalysis.Analysis.Basic
import ProgramAnalysis.Analysis.Composite.CallStack

/-!
Composite states: one part for each of several analyses and the call stack that they share. States
are numbered in the order they are made, so a state is recognised without looking at its parts; the
bottom state has number 0. Numbers do not count when states are compared.
-/
namespace ProgramAnalysis

structure CompositeState where
  number : Nat
  parts : List Part
  stack : CallStack

namespace CompositeState

instance : BEq CompositeState := ⟨fun s t => s.stack = t.stack && s.parts == t.parts⟩

def bottomNumber : Nat := 0

def isCanonicalBottom (s : CompositeState) : Bool := s.number = bottomNumber

/-- The first part tells where the program is. -/
def point? (s : CompositeState) : Option Point := s.parts.head?.bind Part.point?

instance : Located CompositeState := ⟨point?⟩

def toText (s : CompositeState) : String :=
  "(" ++ ", ".intercalate (s.parts.map Part.describe) ++ ")" ++
    if s.stack.isEmpty then "" else s!" in {s.stack.toText}"

end CompositeState

/-- What composite states are made from: the state that the components share, the number of the
next composite state, and how many pairs of states were compared for covering. -/
structure CompositeStore (σ : Type) where
  shared : σ
  next : Nat := CompositeState.bottomNumber + 1
  coverChecks : Nat := 0

abbrev CompositeM (σ : Type) := AnalysisM (CompositeStore σ)

namespace CompositeM

variable {σ α : Type}

@[inline] def shared (act : AnalysisM σ α) : CompositeM σ α :=
  Attempt.zoom (fun s => (s.shared, (s.next, s.coverChecks))) (fun t (n, c) => ⟨t, n, c⟩) act

def illFormed : CompositeM σ α := Attempt.ofOutcome (ExceptT.lift (.error .illFormed))

def state (parts : List Part) (stack : CallStack) : CompositeM σ CompositeState := do
  let number := (← get).next
  modify fun s => { s with next := number + 1 }
  return ⟨number, parts, stack⟩

end CompositeM

abbrev Component (σ π : Type) := Analysis σ Part π

/-- Several analyses side by side. The first of them follows locations, and the operators rely on it
to tell the points of the program apart. -/
structure Composite (σ π : Type) where
  components : List (Component σ π)
  /-- Reached states are divided by location, so locations need not be compared. -/
  specialized : Bool

namespace Composite

variable {σ π : Type}

def ofComponents (components : List (Component σ π)) (specialized : Bool) :
    Except Violation (Composite σ π) :=
  match components with
  | [] => .error .noComponent
  | c :: _ =>
    match c.bottom with
    | .location _ => .ok ⟨components, specialized⟩
    | _ => .error (.firstNotLocation c.name)

def names (c : Composite σ π) : List String := c.components.map (·.name)

/-- The names as a list of quoted texts. -/
def toText (c : Composite σ π) : String := Quoted.list (c.names.map Quoted.encode)

/-- The number of the first component that is asked whether a state is covered. -/
def firstChecked (c : Composite σ π) : Nat := if c.specialized then 1 else 0

/-! ### The lattice -/

def bottom (c : Composite σ π) : CompositeState :=
  ⟨CompositeState.bottomNumber, c.components.map (·.bottom), .empty⟩

def top (c : Composite σ π) : CompositeM σ CompositeState := do
  CompositeM.state (← c.components.mapM fun a => CompositeM.shared a.top) .empty

def initial (c : Composite σ π) (x : Point) : CompositeM σ CompositeState := do
  CompositeM.state (← c.components.mapM fun a => CompositeM.shared (a.initial x)) .empty

def anyBottom : List (Component σ π) → List Part → CompositeM σ Bool
  | a :: as, p :: ps => do
    if ← CompositeM.shared (a.isBottom p) then return true else anyBottom as ps
  | _, _ => return false

def isBottom (c : Composite σ π) (s : CompositeState) : CompositeM σ Bool :=
  if s.isCanonicalBottom then return true else anyBottom c.components s.parts

/-- Whether all components accept their parts of two states. Each component needs its part. -/
def allParts (test : Component σ π → Part → Part → AnalysisM σ Bool) :
    List (Component σ π) → List Part → List Part → CompositeM σ Bool
  | [], _, _ => return true
  | a :: as, p :: ps, q :: qs => do
    if ← CompositeM.shared (test a p q) then allParts test as ps qs else return false
  | _ :: _, _, _ => CompositeM.illFormed

/-- A state is below itself, and below another one if it has the same stack and every part is below
its counterpart. -/
def le (c : Composite σ π) (s t : CompositeState) : CompositeM σ Bool :=
  if s.number = t.number then return true
  else if s.stack ≠ t.stack then return false
  else allParts (·.le) c.components s.parts t.parts

def zipParts (combine : Component σ π → Part → Part → AnalysisM σ Part) :
    List (Component σ π) → List Part → List Part → CompositeM σ (List Part)
  | [], _, _ => return []
  | a :: as, p :: ps, q :: qs => do
    let r ← CompositeM.shared (combine a p q)
    return r :: (← zipParts combine as ps qs)
  | _ :: _, _, _ => CompositeM.illFormed

/-- The join of the parts with the call stack of the second state. -/
def join (c : Composite σ π) (s t : CompositeState) : CompositeM σ CompositeState := do
  CompositeM.state (← zipParts (·.join) c.components s.parts t.parts) t.stack

end Composite

end ProgramAnalysis
