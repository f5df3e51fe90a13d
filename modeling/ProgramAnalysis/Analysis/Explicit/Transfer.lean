import ProgramAnalysis.Analysis.Explicit.State
import ProgramAnalysis.Failure
import ProgramAnalysis.Program.Edge

/-!
What edges do to known values. Expressions are computed with 64-bit numbers; an operation without
result gives no known value.
-/
namespace ProgramAnalysis

namespace ExplicitState

def ofBool (b : Bool) : Int := if b then 1 else 0

/-- A connective of two values, either of which may be unknown; one operand may decide alone. -/
def logic (c : Connective) (a b : Option Int) : Option Int :=
  match a with
  | some x =>
    if (x != 0) = c.unit then b.map fun y => ofBool (y != 0) else some (ofBool !c.unit)
  | none =>
    match b with
    | some y => if (y != 0) = c.unit then none else some (ofBool !c.unit)
    | none => none

def eval (st : ExplicitState) : Expr → Option Int
  | .var x => st.value? x
  | .const c => some c
  | .nondet | .deref _ => none
  | .neg a => (st.eval a).bind fun x => Machine.checked Machine.bound64 (-x)
  | .not a => (st.eval a).map fun x => ofBool (x == 0)
  | .bitNot a => (st.eval a).map Bitwise.not
  | .arith op a b =>
    match st.eval a, st.eval b with
    | some x, some y => Machine.compute? Machine.bound64 op x y
    | _, _ => none
  | .compare c a b =>
    match st.eval a, st.eval b with
    | some x, some y => some (ofBool (c.holds x y))
    | _, _ => none
  | .logic c a b => logic c (st.eval a) (st.eval b)

/-- A variable without known value takes the value of the other side. -/
def equate (st : ExplicitState) (a b : Expr) : ExplicitState :=
  match a, st.eval a, b, st.eval b with
  | .var x, none, _, some v => st.assign x (some v)
  | _, some v, .var x, none => st.assign x (some v)
  | _, _, _, _ => st

/-- Learns values from a condition that has the truth value. -/
def refine (st : ExplicitState) (condition : Expr) (truth : Bool) : ExplicitState :=
  match condition with
  | .not c => st.refine c !truth
  | .logic .and a b => if truth then (st.refine a true).refine b true else st
  | .logic .or a b => if truth then st else (st.refine a false).refine b false
  | .compare .eq a b => if truth then st.equate a b else st
  | .compare .ne a b => if truth then st else st.equate a b
  | .var x => if truth then st else st.assign x (some 0)
  | _ => st

/-- An assignment through a pointer may change every variable. -/
def assignTo (st : ExplicitState) (target : Expr) (value : Option Int) :
    Except Unrecognized ExplicitState :=
  match target with
  | .var x => .ok (st.assign x value)
  | .deref _ => .ok top
  | target => .error (.notAssignable target.toText)

/-- The state after an action; there is none if a condition is known not to have its truth value.
A result that is not given is 0. -/
def after (st : ExplicitState) : Action → Except Unrecognized (Option ExplicitState)
  | .skip => .ok st
  | .declare x init => .ok (st.assign x (init.bind st.eval))
  | .assign target value => return some (← st.assignTo target (st.eval value))
  | .assume condition truth =>
    match st.eval condition with
    | some v => .ok (if (v != 0) = truth then some st else none)
    | none => .ok (st.refine condition truth)
  | .call _ arguments parameters _ =>
    if arguments.length = parameters.length then
      .ok (some ((parameters.zip arguments).foldl (fun acc (x, e) => acc.assign x (st.eval e)) st))
    else .error .argumentCount
  | .resume function _ target => do
    let x := resultVar function
    let st ← target.elim (.ok st) (st.assignTo · (st.value? x))
    return some (st.assign x none)
  | .result function value => .ok (st.assign (resultVar function) (value.elim (some 0) st.eval))

def successors (st : ExplicitState) (edge : Edge) : Except Failure (List ExplicitState) :=
  match st with
  | .bottom => .ok []
  | st =>
    match st.after edge.action with
    | .ok next => .ok next.toList
    | .error cause => .error (.unrecognized edge.toText cause)

end ExplicitState

end ProgramAnalysis
