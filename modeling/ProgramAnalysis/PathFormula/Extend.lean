import ProgramAnalysis.Failure
import ProgramAnalysis.PathFormula.Basic
import ProgramAnalysis.Program.Edge

/-!
Edges in path formulas. An assignment gives its variable the next index and says what the variable
is worth there; a condition is read at the indices of its moment. What cannot be said in a formula
(an input, a pointer's target) is left open.
-/
namespace ProgramAnalysis

/-- What an expression is worth: a number, or 1 and 0 for a condition and its negation. -/
inductive Meaning where
  | term (t : Term)
  | condition (f : Formula)

namespace Expr

def term? (s : SsaMap) : Expr → Option Term
  | .var x => some (.indexed x (s.index x))
  | .const c => some (.const c)
  | .neg a => (a.term? s).map .neg
  | .bitNot a => (a.term? s).map .bitNot
  | .arith op a b =>
    match a.term? s, b.term? s with
    | some t, some u => some (.binary op t u)
    | _, _ => none
  | .nondet | .deref _ | .not _ | .compare .. | .logic .. => none

end Expr

namespace Formula

def ofComparison (c : Comparison) (t u : Term) : Formula :=
  match c with
  | .eq => equals t u
  | .ne => (equals t u).negate
  | .lt => lessThan t u
  | .le => atMost t u
  | .gt => lessThan u t
  | .ge => atMost u t

def ofLogic (c : Connective) (f g : Formula) : Formula := join c [f, g]

def nonzero (t : Term) : Formula := (equals t (.const 0)).negate

end Formula

namespace Expr

def condition? (s : SsaMap) : Expr → Option Formula
  | .compare c a b =>
    match a.term? s, b.term? s with
    | some t, some u => some (.ofComparison c t u)
    | _, _ => none
  | .logic c a b =>
    match a.condition? s, b.condition? s with
    | some f, some g => some (.ofLogic c f g)
    | _, _ => none
  | .not a => (a.condition? s).map .negate
  | e => (e.term? s).map .nonzero

def meaning? (s : SsaMap) : Expr → Option Meaning
  | e@(.compare ..) | e@(.logic ..) | e@(.not _) => (e.condition? s).map .condition
  | e => (e.term? s).map .term

end Expr

namespace Meaning

/-- That a variable has this value. -/
def equation (target : Term) : Meaning → Formula
  | .term t => .equals target t
  | .condition f =>
    .disj [.conj [f, .equals target (.const 1)],
      .conj [f.negate, .equals target (.const 0)]]

end Meaning

namespace PathFormula

/-- What an edge adds to a path: the indices after it and the formulas it makes true. -/
structure Effect where
  ssa : SsaMap
  constraints : List Formula := []

namespace Effect

/-- Assigns to a variable; of an unknown value nothing is said. -/
def assign (e : Effect) (x : String) (value : Option Meaning) : Except Violation Effect := do
  let i ← e.ssa.nextIndex x
  let ssa ← e.ssa.set x i
  return ⟨ssa, e.constraints ++ (value.map (·.equation (.indexed x i))).toList⟩

/-- Only variables can be assigned to. -/
def assignTo (e : Effect) (target : Expr) (value : Option Meaning) :
    Outcome Unrecognized Effect :=
  match target with
  | .var x => ExceptT.lift (e.assign x value)
  | target => throw (.assignment target.toText)

/-- Binds parameters from left to right to values that are already known. -/
def bind (e : Effect) (bindings : List (String × Option Meaning)) : Except Violation Effect :=
  bindings.foldlM (fun e (x, value) => e.assign x value) e

end Effect

def effect (s : SsaMap) (action : Action) : Outcome Unrecognized Effect :=
  let start : Effect := ⟨s, []⟩
  match action with
  | .skip => return start
  | .declare x init => ExceptT.lift (start.assign x (init.bind (·.meaning? s)))
  | .assign target value => start.assignTo target (value.meaning? s)
  | .assume condition truth =>
    return ⟨s, ((condition.condition? s).map fun f => if truth then f else f.negate).toList⟩
  | .call function arguments parameters _ =>
    if arguments.length = parameters.length then
      ExceptT.lift (start.bind (parameters.zip (arguments.map (·.meaning? s))))
    else throw (.callArity function arguments.length parameters.length)
  | .resume function _ target =>
    let x := resultVar function
    match target with
    | some target => start.assignTo target (some (.term (.indexed x (s.index x))))
    | none => return start
  | .result function value =>
    match value with
    | some value => ExceptT.lift (start.assign (resultVar function) (value.meaning? s))
    | none => return start

/-- Continues a path by one edge. Lengths are 64-bit numbers. -/
def extend (p : PathFormula) (edge : Edge) : Outcome Failure PathFormula := do
  let e ← ExceptT.adapt (.unrecognized edge.toText) (effect p.ssa edge.action)
  if p.length + 1 < 0x10000000000000000 then
    return ⟨.conj (p.formula :: e.constraints), e.ssa, p.length + 1⟩
  else ExceptT.lift (.error .outOfRange)

end PathFormula

end ProgramAnalysis
