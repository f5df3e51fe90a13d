import ProgramAnalysis.Analysis.Explicit.State
import ProgramAnalysis.Analysis.Sign.State
import ProgramAnalysis.Failure
import ProgramAnalysis.Program.Edge

/-!
What edges do to signs. Conditions restrict the variables that they compare; operators on binary
digits may give any number.
-/
namespace ProgramAnalysis

namespace Sign

def arith (op : ArithOp) (s t : Sign) : Sign :=
  match op with
  | .add => s.add t
  | .sub => s.sub t
  | .mul => s.mul t
  | .div => s.div t
  | .rem => s.rem t
  | .bitAnd | .bitOr | .bitXor | .shl | .shr => top

/-- The sign of a number that compares to a number of the sign `s`. -/
def comparedTo (c : Comparison) (s : Sign) : Sign :=
  match c with
  | .gt => if s.le nonNeg then pos else top
  | .ge => if s.le pos then pos else if s.le nonNeg then nonNeg else top
  | .lt => if s.le nonPos then neg else top
  | .le => if s.le neg then neg else if s.le nonPos then nonPos else top
  | .eq => s
  | .ne => if s = null then nonZero else top

end Sign

namespace SignState

/-- The sign of an expression in a state that is not bottom. -/
def evalKnown (m : SignMap) : Expr → Sign
  | .var x => m.get x
  | .const c => .ofInt c
  | .nondet | .deref _ | .bitNot _ => .top
  | .neg a => (evalKnown m a).negate
  | .not a => (evalKnown m a).logicalNot
  | .arith op a b => (evalKnown m a).arith op (evalKnown m b)
  | .compare .. | .logic .. => .nonNeg

def eval : SignState → Expr → Sign
  | .bottom, _ => .bottom
  | .known m, e => evalKnown m e

/-- Restricts a variable to the numbers that compare to the other side. -/
def assumeSide (st : SignState) (c : Comparison) (side other : Expr) : SignState :=
  match side with
  | .var x => st.restrict x (.comparedTo c (st.eval other))
  | _ => st

/-- Keeps the state unless the condition cannot have the truth value. -/
def assumeValue (st : SignState) (condition : Expr) (truth : Bool) : SignState :=
  let s := st.eval condition
  if (if truth then s ≠ .null else s.zero) then st else .bottom

def assume (st : SignState) (condition : Expr) (truth : Bool) : SignState :=
  match condition with
  | .not c => st.assume c !truth
  | .logic .and a b =>
    if truth then (st.assume a true).assume b true else st.assumeValue (.logic .and a b) truth
  | .logic .or a b =>
    if truth then st.assumeValue (.logic .or a b) truth else (st.assume a false).assume b false
  | .compare c a b =>
    let c := if truth then c else c.complement
    (st.assumeSide c a b).assumeSide c.swap b a
  | .var x => st.restrict x (if truth then .nonZero else .null)
  | e => st.assumeValue e truth

def assignTo (st : SignState) (target : Expr) (s : Sign) : Except Unrecognized SignState :=
  match target with
  | .var x => .ok (st.set x s)
  | target => .error (.notVariable target.toText)

/-- The state after an action. A result that is not given is 0. -/
def after (st : SignState) : Action → Except Unrecognized SignState
  | .skip => .ok st
  | .declare x init => .ok (st.set x (init.elim .top st.eval))
  | .assign target value => st.assignTo target (st.eval value)
  | .assume condition truth => .ok (st.assume condition truth)
  | .call _ arguments parameters _ =>
    if arguments.length = parameters.length then
      .ok ((parameters.zip arguments).foldl (fun acc (x, e) => acc.set x (st.eval e)) st)
    else .error .argumentCount
  | .resume function _ target => do
    let x := resultVar function
    let st ← target.elim (.ok st) (st.assignTo · (st.get x))
    return st.forget x
  | .result function value => .ok (st.set (resultVar function) (value.elim .null st.eval))

/-- The bottom state is no successor. -/
def successors (st : SignState) (edge : Edge) : Except Failure (List SignState) :=
  match st with
  | .bottom => .ok []
  | st =>
    match st.after edge.action with
    | .ok next => .ok (if next.isBottom then [] else [next])
    | .error cause => .error (.unrecognized edge.toText cause)

/-- Restricts a state to the values that are known of some variables. There is none if the two
contradict each other. -/
def agreeWith (st : SignState) : List (String × Int) → Option SignState
  | [] => some st
  | (x, v) :: rest =>
    let refined := (st.get x).meet (.ofInt v)
    if refined = .bottom then none else (st.set x refined).agreeWith rest

end SignState

end ProgramAnalysis
