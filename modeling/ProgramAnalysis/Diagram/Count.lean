import ProgramAnalysis.Diagram.Support

/-!
Counting models. A function whose root is at level `v` has models over the variables from `v` to
`n`; a child whose root is further down leaves the variables in between free. Counts are remembered
by reference. The variables have to increase along every path, and a word has to hold `n + 1`.
-/
namespace ProgramAnalysis

namespace Diagram

/-- The level of a root when the variables end at `n`. -/
def levelWithin (d : Diagram) (n : Nat) (r : Ref) : Nat :=
  match d.node? r with
  | some node => node.var
  | none => n + 1

/-- The number of models over the variables from the root's level to `n`. -/
def countFrom (d : Diagram) (n : Nat) (r : Ref) : Checked (Std.HashMap Ref Nat) Nat :=
  match _inner : d.node? r with
  | none => return if r = .zero then 0 else 1
  | some node => do
    match (← get)[r]? with
    | some count => return count
    | none =>
      let lowLevel := d.levelWithin n (d.low r)
      let highLevel := d.levelWithin n (d.high r)
      if lowLevel ≤ node.var ∨ highLevel ≤ node.var then throw .outOfRange
      else
        let low ← d.countFrom n (d.low r)
        let high ← d.countFrom n (d.high r)
        let count := low <<< (lowLevel - node.var - 1) + high <<< (highLevel - node.var - 1)
        modify (·.insert r count)
        return count
termination_by r.weight
decreasing_by
  · exact (weight_lt_of_node? _inner).1
  · exact (weight_lt_of_node? _inner).2

/-- The number of models over the variables `1` to `n`. -/
def satCount (d : Diagram) (r : Ref) (n : Nat) : Except Violation Nat := do
  let last := (d.support r).getLast?.getD 0
  if n < last then throw (.dependsOutside last n)
  else if 0x100000000 ≤ n + 1 then throw .outOfRange
  else
    let (count, _) ← (d.countFrom n r).run ∅
    return count <<< (d.levelWithin n r - 1)

end Diagram

end ProgramAnalysis
