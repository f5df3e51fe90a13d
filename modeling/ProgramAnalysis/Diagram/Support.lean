import ProgramAnalysis.Diagram.Ite
import Std.Data.HashSet

/-!
The nodes a function reaches, its size and the variables it depends on.
-/
namespace ProgramAnalysis

namespace Diagram

def visit (d : Diagram) (r : Ref) (seen : Std.HashSet Nat) : Std.HashSet Nat :=
  match _inner : d.node? r with
  | none => seen
  | some _ =>
    if seen.contains r.index then seen
    else d.visit (d.high r) (d.visit (d.low r) (seen.insert r.index))
termination_by r.weight
decreasing_by
  · exact (weight_lt_of_node? _inner).1
  · exact (weight_lt_of_node? _inner).2

/-- The numbers of the inner nodes below `r`, in no particular order. -/
def reach (d : Diagram) (r : Ref) : List Nat := (d.visit r ∅).toList

/-- The number of nodes of a function; every function reaches the terminal. -/
def sizeOf (d : Diagram) (r : Ref) : Nat := (d.reach r).length + 1

/-- The variables a function depends on, in increasing order. -/
def support (d : Diagram) (r : Ref) : List Nat :=
  ((d.reach r).map fun i => d.var (.node i)).eraseDups.mergeSort

end Diagram

end ProgramAnalysis
