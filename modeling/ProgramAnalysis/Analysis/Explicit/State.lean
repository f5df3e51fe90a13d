import ProgramAnalysis.Numeric.Machine
import ProgramAnalysis.Program.Expr

/-!
Known values of variables. A variable without an entry may have any value.
-/
namespace ProgramAnalysis

inductive ExplicitState where
  | bottom
  | known (values : NameMap Int)
  deriving DecidableEq

namespace ExplicitState

def top : ExplicitState := .known ∅

def isBottom : ExplicitState → Bool
  | .bottom => true
  | .known _ => false

/-- What is known; of the bottom state nothing is kept. -/
def values : ExplicitState → NameMap Int
  | .bottom => ∅
  | .known m => m

def value? (st : ExplicitState) (x : String) : Option Int := st.values.get? x

def assign (st : ExplicitState) (x : String) (value : Option Int) : ExplicitState :=
  match st, value with
  | .bottom, _ => .bottom
  | .known m, some v => .known (m.insert x v)
  | .known m, none => .known (m.erase x)

def le : ExplicitState → ExplicitState → Bool
  | .bottom, _ => true
  | .known _, .bottom => false
  | .known m, .known n => n.entries.all fun (x, v) => m.get? x = some v

/-- Keeps what both states know. -/
def join : ExplicitState → ExplicitState → ExplicitState
  | .bottom, b => b
  | a, .bottom => a
  | .known m, .known n => .known (m.filter fun x v => n.get? x = some v)

def toText : ExplicitState → String
  | .bottom => "⊥"
  | .known m => "[" ++ m.toText ", " (fun x v => s!"{x}={v}") ++ "]"

def describe (st : ExplicitState) : String :=
  "ExplicitElement \x7b values: \x7b" ++
    st.values.toText ", " (fun x v => s!"{Quoted.encode x}: {v}") ++
    "\x7d, is_bottom: " ++ toString st.isBottom ++ " \x7d"

end ExplicitState

end ProgramAnalysis
