import ProgramAnalysis.Diagram.Ite

/-!
Existential quantification: `existsVar f v` is the disjunction of the two cofactors of `f` at `v`.
-/
namespace ProgramAnalysis

namespace Diagram

/-- Roots below `v` are kept, a root at `v` is replaced by the disjunction of its children. -/
def existsVar (f : Ref) (v : Nat) : DiagramM Ref := do
  if v = 0 then throw .zeroVariable
  else
    let d ← get
    let top := d.level f
    if v < top then return f
    else
      match ← remembered? (.exists f v) with
      | some r => return r
      | none =>
        if top = v then
          let r ← or (d.low f) (d.high f)
          remember (.exists f v) r
          return r
        else
          match _inner : d.node? f with
          | none => throw .illFormed
          | some _ =>
            let children := (d.low f, d.high f)
            let low ← existsVar children.1 v
            let high ← existsVar children.2 v
            let r ← mkNode top low high
            remember (.exists f v) r
            return r
termination_by f.weight
decreasing_by
  · exact (weight_lt_of_node? _inner).1
  · exact (weight_lt_of_node? _inner).2

def existsAll (f : Ref) (vs : List Nat) : DiagramM Ref :=
  vs.foldlM (fun acc v => existsVar acc v) f

end Diagram

end ProgramAnalysis
