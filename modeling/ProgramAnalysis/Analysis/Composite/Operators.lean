import ProgramAnalysis.Analysis.Composite.Basic

/-!
The operators of composite analyses. The successors of a state are all combinations of successors of
its parts, each strengthened by the others. States are merged or covered only where they are at the
same point with the same call stack.
-/
namespace ProgramAnalysis

namespace Composite

variable {σ π : Type}

/-! ### Successors -/

/-- The successors of every part. If one part has none, the edge is infeasible and the parts after
it are not asked. -/
def partSuccessors (π₀ : π) (edge : Edge) :
    List (Component σ π) → List Part → CompositeM σ (Option (List (List Part)))
  | [], _ => return some []
  | a :: as, p :: ps => do
    let next ← CompositeM.shared (a.successors p π₀ edge)
    if next.isEmpty then return none
    return (← partSuccessors π₀ edge as ps).map (next :: ·)
  | _ :: _, [] => CompositeM.illFormed

/-- All lists with one element of each list, those with the same first element together. -/
def combinations {α : Type} : List (List α) → List (List α)
  | [] => [[]]
  | xs :: rest => xs.flatMap fun x => (combinations rest).map (x :: ·)

/-- Strengthens every part by all parts as they were before. There is nothing left if one of them is
infeasible. -/
def strengthenParts (π₀ : π) (edge : Edge) (tuple : List Part) :
    List (Component σ π) → List Part → CompositeM σ (Option (List Part))
  | [], _ => return some []
  | a :: as, p :: ps => do
    match ← CompositeM.shared (a.strengthen p tuple edge π₀) with
    | .infeasible => return none
    | .unchanged => return (← strengthenParts π₀ edge tuple as ps).map (p :: ·)
    | .replaced q => return (← strengthenParts π₀ edge tuple as ps).map (q :: ·)
  | _ :: _, [] => CompositeM.illFormed

def successors (c : Composite σ π) (s : CompositeState) (π₀ : π) (edge : Edge) :
    CompositeM σ (List CompositeState) := do
  match s.stack.after? edge.action with
  | none => return []
  | some stack =>
    match ← partSuccessors π₀ edge c.components s.parts with
    | none => return []
    | some next =>
      (combinations next).filterMapM fun tuple => do
        match ← strengthenParts π₀ edge tuple c.components tuple with
        | some parts => return some (← CompositeM.state parts stack)
        | none => return none

/-! ### Merging and covering -/

/-- A merge that changes no part gives the reached state itself. -/
def merge (c : Composite σ π) (s reached : CompositeState) (π₀ : π) :
    CompositeM σ CompositeState := do
  if s.point? ≠ reached.point? || s.stack ≠ reached.stack then return reached
  let merged ← zipParts (fun a p q => a.merge p q π₀) c.components s.parts reached.parts
  if (merged.zip reached.parts).all fun (p, q) => p == q then return reached
  CompositeM.state merged reached.stack

def covers (c : Composite σ π) (s reached : CompositeState) : CompositeM σ Bool := do
  modify fun store => { store with coverChecks := store.coverChecks + 1 }
  if s.stack ≠ reached.stack then return false
  else if s.point? ≠ reached.point? then
    Attempt.ofOutcome (ExceptT.lift (.error .differentLocations))
  else if s.parts.length ≠ reached.parts.length then CompositeM.illFormed
  else
    let own := c.components.drop c.firstChecked
    allParts (·.covers) own (s.parts.drop c.firstChecked) (reached.parts.drop c.firstChecked)

def anyCheckedBottom : List (Component σ π) → List Part → CompositeM σ Bool
  | [], _ => return false
  | a :: as, p :: ps => do
    if ← CompositeM.shared (a.isBottom p) then return true else anyCheckedBottom as ps
  | _ :: _, [] => CompositeM.illFormed

/-- A state with a bottom part is covered by nothing at all. -/
def stop (c : Composite σ π) (s : CompositeState) (reached : List CompositeState) :
    CompositeM σ Bool := do
  if s.isCanonicalBottom then return true
  else if ← anyCheckedBottom (c.components.drop c.firstChecked) (s.parts.drop c.firstChecked) then
    return true
  else anyOf (c.covers s) reached

def analysis (c : Composite σ π) : Analysis (CompositeStore σ) CompositeState π where
  name := "composite"
  bottom := c.bottom
  top := c.top
  isBottom := c.isBottom
  le := c.le
  join := c.join
  initial := c.initial
  successors := c.successors
  merge := c.merge
  covers := c.covers
  stop := c.stop

end Composite

end ProgramAnalysis
