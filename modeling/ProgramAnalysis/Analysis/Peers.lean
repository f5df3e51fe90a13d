import ProgramAnalysis.Analysis.Basic
import ProgramAnalysis.Analysis.Explicit.Transfer
import ProgramAnalysis.Analysis.Predicate.Transfer
import ProgramAnalysis.Analysis.Sign.Transfer

/-!
The analyses: locations, signs, known values, predicates.
-/
namespace ProgramAnalysis

namespace Analysis

variable {σ π : Type}

def ofExcept {α : Type} : Except Failure α → AnalysisM σ α
  | .ok a => return a
  | .error f => throw f

def locations : Analysis σ LocationState π where
  name := "location"
  bottom := .bottom
  top := return .top
  isBottom l := return l = .bottom
  le l m := return l.le m
  join l m := return l.join m
  initial x := return .point x
  successors l _ edge := return l.successors edge
  merge _ reached _ := return reached
  covers l m := return l.le m

/-- Whether reached states are joined with new states or kept apart. -/
inductive MergeRule where
  | separate
  | join
  deriving DecidableEq, Repr

/-- Known values narrow the signs of their variables. -/
def strengthenSigns (s : SignState) (siblings : List Part) : Strengthening SignState :=
  match Part.first? ExplicitState siblings with
  | none => .unchanged
  | some known =>
    match s.agreeWith known.values.entries with
    | none => .infeasible
    | some t => if t = s then .unchanged else .replaced t

def signs (rule : MergeRule) : Analysis σ SignState π where
  name := "sign"
  bottom := .bottom
  top := return .top
  isBottom s := return s.isBottom
  le s t := return s.le t
  join s t := return s.join t
  initial _ := return .top
  successors s _ edge := ofExcept (s.successors edge)
  strengthen s siblings _ _ := return strengthenSigns s siblings
  merge s reached _ :=
    match rule with
    | .separate => return reached
    | .join => return s.join reached
  covers s t := return s.le t

def values : Analysis σ ExplicitState π where
  name := "explicit"
  bottom := .bottom
  top := return .top
  isBottom e := return e.isBottom
  le e f := return e.le f
  join e f := return e.join f
  initial _ := return .top
  successors e _ edge := ofExcept (e.successors edge)
  merge _ reached _ := return reached
  covers e f := return e.le f

def predicates (o : BlockOptions) (program : Automaton) :
    Analysis Abstractor PredicateState Precision where
  name := "predicate"
  bottom := .bottom
  top := return .top
  isBottom s := return s.isBottom
  le := PredicateState.le
  join := PredicateState.join
  initial _ := return .initial
  successors s π edge := s.successors o program π edge
  merge s reached _ := return s.merge reached
  covers := PredicateState.isCovered

/-- The analyses by name, as components of a composite. -/
def component? (o : BlockOptions) (program : Automaton) :
    String → Option (Analysis Abstractor Part Precision)
  | "location" => some locations.onParts
  | "sign" => some (signs .separate).onParts
  | "sign_join" => some (signs .join).onParts
  | "explicit" => some values.onParts
  | "predicate" => some (predicates o program).onParts
  | _ => none

end Analysis

end ProgramAnalysis
