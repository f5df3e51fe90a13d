import ProgramAnalysis.Abstraction.Compute

/-!
Abstractions from abstractions: conjunction, and forgetting predicates and bringing them back.
-/
namespace ProgramAnalysis

namespace Abstractor

def conjoin (a b : Abstraction) : AbstractorM Abstraction := do
  if a.block = b.block then
    let r ← regionsOnly (a.region.and b.region)
    return ⟨r, .conj [a.formula, b.formula], .conj [a.instantiated, b.instantiated], a.block⟩
  else
    Attempt.ofOutcome (ExceptT.lift (.error
      (.differentBlocks a.block.toText b.block.toText)))

def forget (r : Region) (ps : List Predicate) : DiagramM Region :=
  ps.foldlM (fun r p => r.existsVar p.marker) r

def reduce (a : Abstraction) (ps : List Predicate) (s : SsaMap) : AbstractorM Abstraction := do
  ofRegion (← regionsOnly (forget a.region ps)) s a.block

/-- Adds what `source` says without the predicates `ps` to a region. -/
def expandRegion (reduced source : Region) (ps : List Predicate) (s : SsaMap)
    (block : PathFormula) : AbstractorM Abstraction := do
  let kept ← regionsOnly (forget source ps)
  ofRegion (← regionsOnly (reduced.and kept)) s block

def expand (reduced source : Abstraction) (ps : List Predicate) (s : SsaMap) :
    AbstractorM Abstraction :=
  expandRegion reduced.region source.region ps s reduced.block

/-- The predicates of the atoms of a formula. -/
def predicatesOf (f : Formula) : AbstractorM (List Predicate) :=
  registryOnly (f.symbolicAtoms.mapM Registry.predicate)

end Abstractor

end ProgramAnalysis
