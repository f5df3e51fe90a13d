import ProgramAnalysis.Formula.Basic
import ProgramAnalysis.Region

/-!
Predicates. A predicate ties an atom over program variables to a region variable and to a
propositional variable for the solver. The registry makes one predicate for each atom and numbers
them in the order of first use.
-/
namespace ProgramAnalysis

structure Predicate where
  id : Nat
  /-- The region variable that stands for the predicate. -/
  marker : Region
  atom : Formula
  deriving DecidableEq

namespace Predicate

def name (p : Predicate) : String := s!"PRED{p.id}"

/-- The propositional variable that stands for the predicate. -/
def symbol (p : Predicate) : Formula := .prop p.name

def toText (p : Predicate) : String := s!"{p.name} <-> {p.atom.toText}"

def inOrder (ps : List Predicate) : List Predicate := ps.mergeSort fun p q => p.id ≤ q.id

end Predicate

structure Registry where
  diagram : Diagram
  /-- Predicate number `i` stands at place `i`. -/
  predicates : List Predicate

abbrev RegistryM := Checked Registry

namespace Registry

/-- No predicates, over a diagram with a computed table of `2 ^ 16` slots. -/
def empty : Except Violation Registry := do
  return ⟨← Diagram.ofBits 16, []⟩

def size (r : Registry) : Nat := r.predicates.length

@[inline] def regions {α : Type} (act : DiagramM α) : RegistryM α :=
  Checked.zoom (fun r => (r.diagram, r.predicates)) Registry.mk act

def ofAtom? (r : Registry) (atom : Formula) : Option Predicate :=
  r.predicates.find? (·.atom = atom)

def ofName? (r : Registry) (x : String) : Option Predicate := r.predicates.find? (·.name = x)

def ofMarker? (r : Registry) (x : Region) : Option Predicate :=
  r.predicates.find? (·.marker = x)

/-- The predicate of an atom, which is made when the atom is new. -/
def predicate (atom : Formula) : RegistryM Predicate := do
  match (← get).ofAtom? atom with
  | some p => return p
  | none =>
    let marker ← regions Region.fresh
    let p : Predicate := ⟨(← get).size, marker, atom⟩
    modify fun r => { r with predicates := r.predicates ++ [p] }
    return p

def falsePredicate : RegistryM Predicate := predicate (.bool false)

def ofVar (v : Nat) : RegistryM Predicate := do
  let x : Region := ⟨← regions (Diagram.mkVar v)⟩
  match (← get).ofMarker? x with
  | some p => return p
  | none => throw (.notPredicateVariable x.toText)

/-- The predicates that a region depends on, each once and in order. A variable that the search meets
first is looked up first. -/
def predicatesOf (r : Region) : RegistryM (List Predicate) := do
  let vars := Region.variablesFrom (← get).diagram [r] ∅
  return Predicate.inOrder (← vars.mapM ofVar).eraseDups

end Registry

end ProgramAnalysis
