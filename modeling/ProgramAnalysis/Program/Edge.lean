import ProgramAnalysis.Program.Expr

/-!
Points of a program and the edges between them. An edge says where it leads and what is done on the
way. A call passes arguments and enters a function; the function stores its result in a variable of
its own, and the edge back to the caller copies it.
-/
namespace ProgramAnalysis

structure Point where
  id : Nat
  deriving DecidableEq, Hashable, Repr, Inhabited

namespace Point

def toText (p : Point) : String := s!"N{p.id}"

end Point

/-- What an edge does. -/
inductive Action where
  | skip
  | declare (x : String) (init : Option Expr)
  | assign (target value : Expr)
  /-- The edge is taken only where the condition has this truth value. -/
  | assume (condition : Expr) (truth : Bool)
  /-- Enters a function from a call site. -/
  | call (function : String) (arguments : List Expr) (parameters : List String) (site : Point)
  /-- Goes back to a call site, where the result may be assigned. -/
  | resume (function : String) (site : Point) (target : Option Expr)
  /-- Stores the result of the function. -/
  | result (function : String) (value : Option Expr)
  deriving DecidableEq, Repr

structure Edge where
  source : Point
  target : Point
  action : Action
  deriving DecidableEq, Repr

def resultVar (function : String) : String := function ++ "::__retval__"

namespace Action

def toText : Action → String
  | skip => "skip"
  | declare x (some e) => s!"int {x} = {e.toText}"
  | declare x none => s!"int {x}"
  | assign l e => s!"{l.toText} = {e.toText}"
  | assume c true => s!"[{c.toText}]"
  | assume c false => s!"[!{c.toText}]"
  | call f args _ _ => f ++ "(" ++ ", ".intercalate (args.map Expr.toText) ++ ")"
  | resume f _ (some l) => s!"{l.toText} = return from {f}"
  | resume f _ none => s!"return from {f}"
  | result _ (some e) => s!"return {e.toText}"
  | result _ none => "return"

end Action

namespace Edge

def assign (source target : Point) (x : String) (e : Expr) : Edge :=
  ⟨source, target, .assign (.var x) e⟩

def branch (source yes no : Point) (condition : Expr) : List Edge :=
  [⟨source, yes, .assume condition true⟩, ⟨source, no, .assume condition false⟩]

def toText (e : Edge) : String := s!"{e.source.toText} -> {e.target.toText}: {e.action.toText}"

end Edge

end ProgramAnalysis
