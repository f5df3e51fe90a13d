import ProgramAnalysis.Diagram.Count
import ProgramAnalysis.Diagram.Paths
import ProgramAnalysis.Diagram.Quantify

/-!
Regions: Boolean functions over region variables. A region variable is itself a region, the one
where it is true. Regions of one diagram are equal exactly when their functions are.
-/
namespace ProgramAnalysis

structure Region where
  ref : Ref
  deriving DecidableEq, Hashable, Repr

namespace Region

def top : Region := ⟨.one⟩

def bottom : Region := ⟨.zero⟩

def isTrue (r : Region) : Bool := r.ref = .one

def isFalse (r : Region) : Bool := r.ref = .zero

def toText (r : Region) : String := s!"Region({r.ref.toText})"

/-- A region variable of its own, below all others. -/
def fresh : DiagramM Region := do
  return ⟨← Diagram.mkVar (← Diagram.newVar)⟩

def and (a b : Region) : DiagramM Region := do return ⟨← Diagram.and a.ref b.ref⟩

def or (a b : Region) : DiagramM Region := do return ⟨← Diagram.or a.ref b.ref⟩

def not (a : Region) : Region := ⟨-a.ref⟩

def entails (a b : Region) : DiagramM Bool := Diagram.implies a.ref b.ref

def index (x : Region) : DiagramM Nat := do
  let v := (← get).var x.ref
  if v = 0 then throw (.notRegionVariable x.toText)
  else if x.ref = (← Diagram.mkVar v) then return v
  else throw (.notRegionVariable x.toText)

def existsVar (r x : Region) : DiagramM Region := do
  return ⟨← Diagram.existsVar r.ref (← x.index)⟩

/-- Splits a region at its first variable: the variable, where it is true, where it is false.
A constant has none. -/
def decompose (r : Region) : DiagramM (Option (Region × Region × Region)) := do
  let d ← get
  match d.node? r.ref with
  | none => return none
  | some n =>
    let parts := (d.high r.ref, d.low r.ref)
    let x ← Diagram.mkVar n.var
    return some (⟨x⟩, ⟨parts.1⟩, ⟨parts.2⟩)

/-- The variables at the roots of the regions that a search meets, in order. Every region is split
once, and the part where its variable is false comes first. -/
def variablesFrom (d : Diagram) (pending : List Region) (seen : Std.HashSet Region) : List Nat :=
  match pending with
  | [] => []
  | r :: rest =>
    if seen.contains r then variablesFrom d rest seen
    else match _inner : d.node? r.ref with
      | none => variablesFrom d rest (seen.insert r)
      | some n =>
        n.var :: variablesFrom d (⟨d.low r.ref⟩ :: ⟨d.high r.ref⟩ :: rest) (seen.insert r)
termination_by pending.foldr (fun r n => d.steps r.ref + n) 0
decreasing_by
  · have := d.steps_pos r.ref
    rw [List.foldr_cons]
    omega
  · have := d.steps_pos r.ref
    rw [List.foldr_cons]
    omega
  · rw [List.foldr_cons, List.foldr_cons, List.foldr_cons, Diagram.steps_of_node? _inner]
    dsimp only
    omega

/-- Disjoint conjunctions of literals that cover a region, each literal a variable with its value.
-/
def cubes (r : Region) : DiagramM (List (List (Region × Bool))) := do
  ((← get).paths r.ref).mapM fun path =>
    path.mapM fun lit => do return (⟨← Diagram.mkVar lit.natAbs⟩, 0 < lit)

def cube (literals : List (Region × Bool)) : DiagramM Region :=
  literals.foldlM (fun acc (x, value) => acc.and (if value then x else x.not)) top

/-- The number of models of `r` over the given variables, each counted once. The variables that
were not asked for are free, so a count over all variables up to the last one has each model
`2 ^ k` times. -/
def modelCount (r : Region) (xs : List Region) : DiagramM Nat := do
  let vs ← xs.mapM index
  let d ← get
  if (d.support r.ref).all vs.contains then
    let last := vs.foldl max 0
    let total ← d.satCount r.ref last
    return total >>> (last - vs.eraseDups.length)
  else throw .regionDependsOutside

def size (d : Diagram) (r : Region) : Nat := d.sizeOf r.ref

end Region

end ProgramAnalysis
