import ProgramAnalysis.Failure
import ProgramAnalysis.Formula.Basic
import ProgramAnalysis.Linear.Form

/-!
From atoms to linear constraints. Terms become linear forms; program variables, products of
variables, and operations that are not linear and not on constants are opaque: they are variables of
the form, numbered by first occurrence. A number outside of the range is a failure.
-/
namespace ProgramAnalysis

/-- What is required of a linear form. -/
inductive Constraint where
  | atMostZero (e : LinearForm)
  | zero (e : LinearForm)
  | nonzero (e : LinearForm)
  deriving DecidableEq, Repr

/-- The opaque terms met so far; the position of a term is its variable. -/
abbrev LinearizeM := StateT (List Term) (Except SolverFailure)

namespace LinearizeM

def orOverflow (e : Option LinearForm) : LinearizeM LinearForm :=
  match e with
  | some e => return e
  | none => throw .overflow

/-- The variable of an opaque term. -/
def opaqueTerm (t : Term) : LinearizeM LinearForm := do
  let known ← get
  match known.idxOf? t with
  | some x => return .ofVar x
  | none =>
    set (known ++ [t])
    return .ofVar known.length

end LinearizeM

open LinearizeM (orOverflow opaqueTerm)

namespace Term

/-- The linear form of a term. Bitwise complement is `-t - 1`; a product is linear where one factor
is constant. -/
def linearize (t : Term) : LinearizeM LinearForm :=
  match t with
  | .const c => return .ofConst c
  | .var _ => opaqueTerm t
  | .neg a => do orOverflow ((← a.linearize).scale? (-1))
  | .bitNot a => do
    let e ← orOverflow ((← a.linearize).scale? (-1))
    orOverflow (e.addConst? (-1))
  | .binary op a b => do
    let ea ← a.linearize
    let eb ← b.linearize
    match op, ea.const?, eb.const? with
    | .add, _, _ => orOverflow (ea.addScaled? eb 1)
    | .sub, _, _ => orOverflow (ea.sub? eb)
    | .mul, some c, _ => orOverflow (eb.scale? c)
    | .mul, none, some c => orOverflow (ea.scale? c)
    | .mul, none, none => opaqueTerm t
    | op, some x, some y =>
      match Machine.compute? Machine.bound128 op x y with
      | some c => return .ofConst c
      | none => opaqueTerm t
    | _, _, _ => opaqueTerm t

end Term

namespace Constraint

/-- The constraint that a comparison has a truth value. Over the integers `0 < e` is
`1 ≤ e`. -/
def ofComparison (r : Relation) (a b : Term) (truth : Bool) : LinearizeM Constraint := do
  let ea ← a.linearize
  let eb ← b.linearize
  let e ← orOverflow (ea.sub? eb)
  match r, truth with
  | .le, true => return .atMostZero e
  | .le, false => return .atMostZero (← orOverflow ((← orOverflow (e.scale? (-1))).addConst? 1))
  | .lt, true => return .atMostZero (← orOverflow (e.addConst? 1))
  | .lt, false => return .atMostZero (← orOverflow (e.scale? (-1)))
  | .eq, true => return .zero e
  | .eq, false => return .nonzero e

/-- The constraints of literals, one after another; formulas that are no atoms have none. -/
def ofLiterals : List (Formula × Bool) → LinearizeM (List Constraint)
  | [] => return []
  | (.atom r a b, truth) :: ls => do
    let c ← ofComparison r a b truth
    return c :: (← ofLiterals ls)
  | _ :: ls => ofLiterals ls

end Constraint

end ProgramAnalysis
