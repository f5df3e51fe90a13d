import ProgramAnalysis.Formula.Basic

/-!
Path formulas. A path formula says in one formula what holds along a path and knows the index of
every variable at the end of the path, so it can be continued from there. Two path formulas are
joined over a common index map: a side that stands at a lower index of a variable gets the equation
that the variable kept its value up to the higher one.
-/
namespace ProgramAnalysis

structure PathFormula where
  formula : Formula
  /-- The indices at the end of the path. -/
  ssa : SsaMap
  length : Nat
  deriving DecidableEq

namespace PathFormula

def empty : PathFormula := ⟨.bool true, .empty, 0⟩

/-- The path without edges that begins where `p` ends. -/
def restart (p : PathFormula) : PathFormula := ⟨.bool true, p.ssa, 0⟩

/-- Adds what holds at the end of the path, a formula over variables without index. -/
def assume (p : PathFormula) (f : Formula) : PathFormula :=
  { p with formula := .conj [p.formula, f.instantiate p.ssa] }

def toText (p : PathFormula) : String :=
  s!"{p.formula.toText} {p.ssa.toText} ({p.length} edges)"

/-- Two path formulas over one index map. -/
structure Merged where
  left : Formula
  right : Formula
  ssa : SsaMap
  length : Nat

/-- The equation that the variable `x` has the same value at the index `i` and at a higher one. -/
def lift? (x : String) (i high : Nat) : Option Formula :=
  if i < high then some (.equals (.indexed x high) (.indexed x i)) else none

/-- The indices of a variable that the two maps disagree on. -/
def indicesOf (d : SsaMap.Difference) : Nat × Nat :=
  (d.left.getD SsaMap.defaultIndex, d.right.getD SsaMap.defaultIndex)

def merge (p q : PathFormula) : Merged :=
  let differences := p.ssa.differences q.ssa
  let lifts (side : Nat × Nat → Nat) : List Formula :=
    differences.filterMap fun d =>
      let (i, j) := indicesOf d
      lift? d.name (side (i, j)) (Nat.max i j)
  { left := .conj (p.formula :: lifts Prod.fst)
    right := .conj (q.formula :: lifts Prod.snd)
    ssa := p.ssa.max q.ssa
    length := Nat.max p.length q.length }

def disj (p q : PathFormula) : PathFormula :=
  let m := p.merge q
  ⟨.disj [m.left, m.right], m.ssa, m.length⟩

end PathFormula

end ProgramAnalysis
