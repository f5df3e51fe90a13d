import ProgramAnalysis.Diagram.Support

/-!
The paths of a function to the constant true. A path is a list of literals, signed variable numbers
from the root on; a variable that is not on the path may have either value. Two different paths
disagree on a variable of both. The branch where the variable is true comes first.
-/
namespace ProgramAnalysis

namespace Diagram

/-- A variable number read as a signed 32-bit word, with the sign of the branch. -/
def literal (v : Nat) (value : Bool) : Int :=
  if value then Int.bmod v 0x100000000 else -Int.bmod v 0x100000000

/-- All paths to the constant true. -/
def paths (d : Diagram) (r : Ref) : List (List Int) :=
  match _inner : d.node? r with
  | none => if r = .zero then [] else [[]]
  | some n =>
    (d.paths (d.high r)).map (literal n.var true :: ·) ++
      (d.paths (d.low r)).map (literal n.var false :: ·)
termination_by r.weight
decreasing_by
  · exact (weight_lt_of_node? _inner).2
  · exact (weight_lt_of_node? _inner).1

/-- The paths where every literal is a 32-bit number: variable `2 ^ 31` has no false literal. -/
def paths? (d : Diagram) (r : Ref) : Except Violation (List (List Int)) :=
  if (d.support r).contains 0x80000000 then .error .outOfRange else .ok (d.paths r)

/-! ### One path at a time

A search keeps the references that are still to be looked at, the next one first, each with the
literals on the way to it. -/

/-- How many references a search looks at from `r` on. -/
def steps (d : Diagram) (r : Ref) : Nat :=
  match _inner : d.node? r with
  | none => 1
  | some _ => d.steps (d.high r) + d.steps (d.low r) + 1
termination_by r.weight
decreasing_by
  · exact (weight_lt_of_node? _inner).2
  · exact (weight_lt_of_node? _inner).1

theorem steps_of_node? {d : Diagram} {r : Ref} {n : Node} (inner : d.node? r = some n) :
    d.steps r = d.steps (d.high r) + d.steps (d.low r) + 1 := by
  rw [steps]
  split
  · rename_i terminal
    rw [terminal] at inner
    cases inner
  · rfl

theorem steps_pos (d : Diagram) (r : Ref) : 0 < d.steps r := by
  rw [steps]
  split <;> omega

def work (d : Diagram) : List (Ref × List Int) → Nat
  | [] => 0
  | (r, _) :: rest => d.steps r + d.work rest

/-- The next path, and what is pending after it. -/
def nextPath (d : Diagram) (pending : List (Ref × List Int)) :
    Option (List Int × List (Ref × List Int)) :=
  match pending with
  | [] => none
  | (r, taken) :: rest =>
    match _inner : d.node? r with
    | none => if r = .zero then d.nextPath rest else some (taken, rest)
    | some n =>
      d.nextPath ((d.high r, taken ++ [literal n.var true]) ::
        (d.low r, taken ++ [literal n.var false]) :: rest)
termination_by d.work pending
decreasing_by
  · have := d.steps_pos r
    rw [work]
    omega
  · rw [work, work, work, steps_of_node? _inner]
    omega

theorem work_of_nextPath {d : Diagram} {pending rest : List (Ref × List Int)} {path : List Int}
    (next : d.nextPath pending = some (path, rest)) : d.work rest < d.work pending := by
  fun_induction nextPath d pending with
  | case1 => cases next
  | case2 taken pending _ ih =>
    have := ih next
    rw [work]
    omega
  | case3 r taken pending =>
    cases next
    have := d.steps_pos r
    rw [work]
    omega
  | case4 r taken pending n inner ih =>
    have := ih next
    rw [work, work] at this
    rw [work, steps_of_node? inner]
    omega

def pathsFrom (d : Diagram) (pending : List (Ref × List Int)) : List (List Int) :=
  match _next : d.nextPath pending with
  | none => []
  | some (path, rest) => path :: d.pathsFrom rest
termination_by d.work pending
decreasing_by exact work_of_nextPath _next

/-- Looks at the paths in order until `test` accepts one. -/
def anyPath {m : Type → Type} [Monad m] (d : Diagram) (test : List Int → m Bool) (r : Ref)
    (taken : List Int) : m Bool :=
  match _inner : d.node? r with
  | none => if r = .zero then return false else test taken.reverse
  | some n => do
    if ← d.anyPath test (d.high r) (literal n.var true :: taken) then return true
    else d.anyPath test (d.low r) (literal n.var false :: taken)
termination_by r.weight
decreasing_by
  · exact (weight_lt_of_node? _inner).2
  · exact (weight_lt_of_node? _inner).1

end Diagram

end ProgramAnalysis
