import ProgramAnalysis.Analysis.Sign.Basic
import ProgramAnalysis.Program.Expr
import ProgramAnalysis.Table.NameMap

/-!
Signs of variables. A variable without an entry may have any sign, so the sign of all numbers is
never stored, and neither is the empty sign: a state where a variable has no possible value is the
bottom state. Equal states are therefore the states with the same meaning.
-/
namespace ProgramAnalysis

/-- A sign that says something and contradicts nothing. -/
def Sign.IsProper (s : Sign) : Prop := s ≠ .bottom ∧ s ≠ .top

instance (s : Sign) : Decidable s.IsProper := inferInstanceAs (Decidable (_ ∧ _))

structure SignMap where
  signs : NameMap Sign
  proper : ∀ e ∈ signs.entries, e.2.IsProper
  deriving DecidableEq

namespace SignMap

def empty : SignMap := ⟨∅, fun _ h => absurd h List.not_mem_nil⟩

def insert (m : SignMap) (x : String) (s : Sign) (proper : s.IsProper) : SignMap where
  signs := m.signs.insert x s
  proper e h := by
    rcases NameMap.mem_insertEntry h with rfl | h
    · exact proper
    · exact m.proper e h

def erase (m : SignMap) (x : String) : SignMap where
  signs := m.signs.erase x
  proper e h := m.proper e (List.mem_filter.mp h).1

def get (m : SignMap) (x : String) : Sign := (m.signs.get? x).getD .top

end SignMap

inductive SignState where
  | bottom
  | known (m : SignMap)
  deriving DecidableEq

namespace SignState

def top : SignState := .known .empty

def isBottom : SignState → Bool
  | .bottom => true
  | .known _ => false

def get : SignState → String → Sign
  | .bottom, _ => .bottom
  | .known m, x => m.get x

def set (st : SignState) (x : String) (s : Sign) : SignState :=
  match st with
  | .bottom => .bottom
  | .known m =>
    if none : s = .bottom then .bottom
    else if any : s = .top then .known (m.erase x)
    else .known (m.insert x s ⟨none, any⟩)

def forget (st : SignState) (x : String) : SignState := st.set x .top

def restrict (st : SignState) (x : String) (s : Sign) : SignState := st.set x ((st.get x).meet s)

/-- Only the variables that the larger state knows matter. -/
def le : SignState → SignState → Bool
  | .bottom, _ => true
  | .known _, .bottom => false
  | .known m, .known n => n.signs.entries.all fun (x, s) => (m.get x).le s

def join : SignState → SignState → SignState
  | .bottom, b => b
  | a, .bottom => a
  | .known m, .known n =>
    m.signs.entries.foldl (fun acc (x, s) => acc.set x (s.join (n.get x))) top

def toText : SignState → String
  | .bottom => "⊥"
  | .known m => "\x7b" ++ m.signs.toText ", " (fun x s => s!"{x} -> {s.toText}") ++ "\x7d"

def describe (st : SignState) : String :=
  let entries := match st with
    | .bottom => ""
    | .known m => m.signs.toText ", " fun x s => s!"{Quoted.encode x}: {s.name}"
  "SignElement \x7b signs: \x7b" ++ entries ++ "\x7d, is_bottom: " ++
    toString st.isBottom ++ " \x7d"

end SignState

end ProgramAnalysis
