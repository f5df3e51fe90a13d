import ProgramAnalysis.Formula.Basic

/-!
Side conditions for `&` and `|`. For operands that are not negative, `a & b` lies between 0 and
both operands, and `a | b` is at least either operand. With these conditions a linear solver knows
bounds of terms that it cannot look into.
-/
namespace ProgramAnalysis

namespace Formula

mutual

/-- The terms `a & b` and `a | b` of a formula from left to right, inner terms first. -/
def masks : Formula → List Term
  | .bool _ => []
  | .prop _ => []
  | .atom _ a b => a.masks ++ b.masks
  | .not f => f.masks
  | .nary _ fs => masksAll fs
  | .iff a b => a.masks ++ b.masks

def masksAll : List Formula → List Term
  | [] => []
  | f :: fs => f.masks ++ masksAll fs

end

/-- The side condition of one term. -/
def maskAxiom? (t : Term) : Option Formula :=
  let zero := Term.const 0
  match t with
  | .binary op a b =>
    let premise := conj [atMost zero a, atMost zero b]
    match op with
    | .bitAnd => some (disj [premise.negate, conj [atMost zero t, atMost t a, atMost t b]])
    | .bitOr => some (disj [premise.negate, conj [atMost a t, atMost b t]])
    | _ => none
  | _ => none

/-- The side conditions of all terms, each term once. -/
def bitwiseAxioms (f : Formula) : Formula :=
  conj (f.masks.eraseDups.filterMap maskAxiom?)

end Formula

end ProgramAnalysis
