import ProgramAnalysis.Predicate.Registry
import ProgramAnalysis.Program.Edge

/-!
Precisions: the predicates to abstract with, everywhere or at single points.
-/
namespace ProgramAnalysis

structure Precision where
  everywhere : List Predicate := []
  atPoint : List (Point × Predicate) := []

namespace Precision

def addEverywhere (π : Precision) (p : Predicate) : Precision :=
  { π with everywhere := π.everywhere ++ [p] }

def addAt (π : Precision) (x : Point) (p : Predicate) : Precision :=
  { π with atPoint := π.atPoint ++ [(x, p)] }

/-- The precision of atoms, whose predicates are made in this order. -/
def ofAtoms (everywhere : List Formula) (atPoint : List (Point × Formula)) :
    RegistryM Precision := do
  return {
    everywhere := ← everywhere.mapM Registry.predicate
    atPoint := ← atPoint.mapM fun (x, f) => do return (x, ← Registry.predicate f) }

def isEmpty (π : Precision) : Bool := π.everywhere.isEmpty && π.atPoint.isEmpty

/-- The predicates at a point, each once and in order. -/
def predicatesAt (π : Precision) (x : Point) : List Predicate :=
  Predicate.inOrder
    (π.everywhere ++ (π.atPoint.filter (·.1 = x)).map (·.2)).eraseDups

end Precision

end ProgramAnalysis
