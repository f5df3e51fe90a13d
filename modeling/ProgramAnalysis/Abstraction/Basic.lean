import ProgramAnalysis.PathFormula.Basic
import ProgramAnalysis.Region

/-!
Abstractions: what is known at a point of the program in terms of predicates. An abstraction is held
as a region, as a formula over variables without index, and as that formula at the end of the block
of edges it was computed from.
-/
namespace ProgramAnalysis

structure Abstraction where
  region : Region
  formula : Formula
  instantiated : Formula
  block : PathFormula

namespace Abstraction

/-- Region and block tell abstractions apart; how the formulas are written does not matter. -/
def same (a b : Abstraction) : Bool := a.region = b.region ∧ a.block = b.block

instance : BEq Abstraction := ⟨same⟩

def top (block : PathFormula) : Abstraction := ⟨.top, .bool true, .bool true, block⟩

def bottom (block : PathFormula) : Abstraction := ⟨.bottom, .bool false, .bool false, block⟩

def isTrue (a : Abstraction) : Bool := a.region.isTrue

def isFalse (a : Abstraction) : Bool := a.region.isFalse

/-- The abstraction as it holds at the end of the path `p`. -/
def reinstantiate (a : Abstraction) (p : PathFormula) : Abstraction :=
  ⟨a.region, a.formula, a.formula.instantiate p.ssa, p⟩

def toText (a : Abstraction) : String := s!"ABS: {a.formula.toText}"

end Abstraction

end ProgramAnalysis
