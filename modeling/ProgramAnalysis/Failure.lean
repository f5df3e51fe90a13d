/-!
Failures that are reported to the caller. They leave the state as it was when they arose, and the
caller may go on. That a path is infeasible is no failure.
-/
namespace ProgramAnalysis

/-- Why a query has no answer. -/
inductive SolverFailure where
  /-- More constraints than allowed while variables were eliminated. -/
  | constraints (limit : Nat)
  | caseSplits (limit : Nat)
  /-- A number left the 128-bit range. -/
  | overflow
  deriving DecidableEq, Repr

namespace SolverFailure

def message : SolverFailure → String
  | constraints n =>
    s!"resource limit exceeded: more than {n} constraints during variable elimination"
  | caseSplits n => s!"resource limit exceeded: more than {n} case splits on disequalities"
  | overflow => "integer overflow in arithmetic reasoning"

end SolverFailure

/-- What an analysis does not understand about an edge. -/
inductive Unrecognized where
  | callArity (function : String) (arguments parameters : Nat)
  | assignment (target : String)
  | argumentCount
  | notVariable (target : String)
  | notAssignable (target : String)
  deriving DecidableEq, Repr

namespace Unrecognized

def message : Unrecognized → String
  | callArity f m n =>
    "call to \x60" ++ f ++ s!"\x60 with {m} arguments, expected {n}"
  | assignment t => "assignment to \x60" ++ t ++ "\x60 is not supported"
  | argumentCount => "argument count does not match parameter count"
  | notVariable t => s!"left-hand side {t} is not a variable"
  | notAssignable t => s!"left-hand side {t} is not assignable"

end Unrecognized

inductive BadValue where
  | notBool (value : String)
  | notNumber (value : String)
  | notBlockRule (value : String)
  deriving DecidableEq, Repr

namespace BadValue

def message : BadValue → String
  | notBool v => "expected \x60true\x60 or \x60false\x60, got \x60" ++ v ++ "\x60"
  | notNumber v => "expected a number, got \x60" ++ v ++ "\x60"
  | notBlockRule v => "unknown block operator \x60" ++ v ++ "\x60"

end BadValue

inductive Failure where
  | solver (cause : SolverFailure)
  | unrecognized (edge : String) (cause : Unrecognized)
  | configuration (key : String) (cause : BadValue)
  deriving DecidableEq, Repr

namespace Failure

def message : Failure → String
  | solver c => s!"solver failure: {c.message}"
  | unrecognized e c => "unrecognized code in edge \x60" ++ e ++ "\x60: " ++ c.message
  | configuration k c => "invalid configuration for option \x60" ++ k ++ "\x60: " ++ c.message

end Failure

end ProgramAnalysis
