import ProgramAnalysis.Diagram.Paths
import ProgramAnalysis.Formula.Basic

/-!
The Boolean skeleton of a formula: a diagram whose variables are the atoms and propositional
variables of the formula, numbered by first occurrence. A path of the skeleton to the constant true
is a conjunction of literals that makes the formula true.
-/
namespace ProgramAnalysis

/-- A skeleton while it is made. Variable `i + 1` of the diagram stands for `atoms[i]`. -/
structure SkeletonState where
  diagram : Diagram
  atoms : Array Formula

abbrev SkeletonM := Checked SkeletonState

namespace SkeletonM

def onDiagram {α : Type} (act : DiagramM α) : SkeletonM α :=
  Checked.zoom (fun s => (s.diagram, s.atoms)) SkeletonState.mk act

def atom (f : Formula) : SkeletonM Ref := do
  match (← get).atoms.idxOf? f with
  | some i => onDiagram (Diagram.mkVar (i + 1))
  | none =>
    let v ← onDiagram Diagram.newVar
    modify fun s => { s with atoms := s.atoms.push f }
    onDiagram (Diagram.mkVar v)

def connect : Connective → Ref → Ref → SkeletonM Ref
  | .and, f, g => onDiagram (Diagram.and f g)
  | .or, f, g => onDiagram (Diagram.or f g)

mutual

def ofFormula : Formula → SkeletonM Ref
  | .bool v => return if v then .one else .zero
  | .prop x => atom (.prop x)
  | .atom r a b => atom (.atom r a b)
  | .not f => do return -(← ofFormula f)
  | .nary c fs => ofArgs c (if c.unit then .one else .zero) fs
  | .iff a b => do
    let f ← ofFormula a
    let g ← ofFormula b
    onDiagram (Diagram.iff f g)

def ofArgs (c : Connective) (acc : Ref) : List Formula → SkeletonM Ref
  | [] => return acc
  | f :: fs => do
    let r ← ofFormula f
    let acc ← connect c acc r
    ofArgs c acc fs

end

end SkeletonM

structure Skeleton where
  diagram : Diagram
  atoms : Array Formula
  root : Ref

namespace Skeleton

/-- The size of the computed table of a skeleton, as a number of bits. -/
def tableBits : Nat := 12

def ofFormula (f : Formula) : Except Violation Skeleton := do
  let diagram ← Diagram.ofBits tableBits
  let (root, s) ← (SkeletonM.ofFormula f).run ⟨diagram, #[]⟩
  return ⟨s.diagram, s.atoms, root⟩

/-- The literals of a path: the atom of each variable with its truth value. -/
def literals (s : Skeleton) (path : List Int) : List (Formula × Bool) :=
  path.filterMap fun lit => (s.atoms[lit.natAbs - 1]?).map fun f => (f, decide (0 < lit))

def var? (s : Skeleton) (f : Formula) : Option Nat := (s.atoms.idxOf? f).map (· + 1)

end Skeleton

end ProgramAnalysis
