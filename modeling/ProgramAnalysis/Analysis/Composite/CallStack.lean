import ProgramAnalysis.Program.Edge

/-!
Call stacks: the calls that have not returned, the innermost first.
-/
namespace ProgramAnalysis

/-- A call of a function from a call site. -/
structure Frame where
  function : String
  site : Point
  deriving DecidableEq, Repr

structure CallStack where
  frames : List Frame
  deriving DecidableEq, Repr

namespace CallStack

/-- No call; the program is in its main function. -/
def empty : CallStack := ⟨[]⟩

def depth (s : CallStack) : Nat := s.frames.length

def isEmpty (s : CallStack) : Bool := s.frames.isEmpty

def push (s : CallStack) (f : Frame) : CallStack := ⟨f :: s.frames⟩

def top? (s : CallStack) : Option Frame := s.frames.head?

def pop? (s : CallStack) : Option CallStack :=
  match s.frames with
  | [] => none
  | _ :: rest => some ⟨rest⟩

/-- The stack after an edge. Only the innermost call can return, and only to its call site. -/
def after? (s : CallStack) : Action → Option CallStack
  | .call f _ _ site => some (s.push ⟨f, site⟩)
  | .resume f site _ => if s.top? = some ⟨f, site⟩ then s.pop? else none
  | _ => some s

def toText (s : CallStack) : String :=
  Quoted.list (s.frames.map fun f => Quoted.encode s!"{f.function}@{f.site.toText}")

end CallStack

end ProgramAnalysis
