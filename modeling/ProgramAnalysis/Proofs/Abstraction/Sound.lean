import ProgramAnalysis.Proofs.Abstraction.Models

/-! Abstractions lose no state. A state at the end of a path gives every predicate its value there; a
path of the skeleton with these values is consistent, and no verdict contradicts them. -/
namespace ProgramAnalysis

open Attempt (Ensures)
open Solver (Refuted)

/-- Variables without an index, and no propositional variables. -/
def Vocabulary.symbolic : Vocabulary := ⟨words.number, fun x => x.index = none, fun _ => False⟩

theorem Vocabulary.arithmetic_includes_symbolic : Vocabulary.arithmetic.Includes .symbolic := by
  constructor
  · intro c h
    exact h
  · intro x _
    trivial
  · intro x h
    exact h

def Store.assignment (s : Store) : Assignment := ⟨fun x => s x.name, fun _ => false⟩

theorem Store.assignment_at (s : Store) (ssa : SsaMap) : s.assignment.At ssa s := fun _ => rfl

variable {ops : Operators} {m : Assignment} {ssa : SsaMap} {s : Store} {f : Formula}

namespace Formula

theorem holds_instantiate (within : f.Within .symbolic) (reads : m.At ssa s) :
    (f.instantiate ssa).holds ops m = f.holds ops s.assignment := by
  rw [instantiate, holds_mapVars]
  refine holds_congr f within ?_ fun _ none => none.elim
  rintro ⟨x, _⟩ rfl
  exact reads x

theorem within_instantiate (within : f.Within .symbolic) (ssa : SsaMap) :
    (f.instantiate ssa).Within ssa.upTo :=
  Within.instantiate (L := .arithmetic) within ssa

end Formula

def Registry.Symbolic (reg : Registry) : Prop := ∀ p ∈ reg.predicates, p.atom.Within .symbolic

theorem Registry.Valid.reflects_store {reg : Registry} {ps : List Predicate} (valid : reg.Valid)
    (symbolic : reg.Symbolic) (known : ∀ p ∈ ps, p ∈ reg.predicates) (reads : m.At ssa s) :
    reg.Reflects ops m ssa ps (reg.valuation ops s.assignment) := by
  intro p mem
  have mem := known p mem
  rw [valid.valuation_marker mem, Formula.holds_instantiate (symbolic p mem) reads]

/-- What an abstraction says, by its region and by its formulas. -/
structure Abstraction.Means (reg : Registry) (ops : Operators) (a : Abstraction) : Prop where
  has : reg.diagram.Has a.region.ref
  within : a.formula.Within .symbolic
  holds : ∀ m, a.formula.holds ops m = reg.holdsIn ops m a.region
  instantiated : a.instantiated = a.formula.instantiate a.block.ssa

namespace Abstraction.Means

variable {reg reg' : Registry} {a b : Abstraction}

theorem grows (means : a.Means reg ops) (valid : reg.Valid) (grown : reg.Grows reg') :
    a.Means reg' ops where
  has := grown.diagram.has means.has
  within := means.within
  holds m := by rw [means.holds, valid.holdsIn_grows grown means.has]
  instantiated := means.instantiated

theorem within_instantiated (means : a.Means reg ops) :
    a.instantiated.Within a.block.ssa.upTo := by
  rw [means.instantiated]
  exact Formula.within_instantiate means.within _

theorem holds_at (means : a.Means reg ops) (reads : m.At a.block.ssa s) :
    a.instantiated.holds ops m = reg.holdsIn ops s.assignment a.region := by
  rw [means.instantiated, Formula.holds_instantiate means.within reads, means.holds]

theorem holds_same (meansA : a.Means reg ops) (meansB : b.Means reg ops) (same : (a == b) = true)
    (m : Assignment) : a.instantiated.holds ops m = b.instantiated.holds ops m := by
  obtain ⟨region, block⟩ := of_decide_eq_true same
  rw [meansA.instantiated, meansB.instantiated, Formula.instantiate, Formula.instantiate,
    Formula.holds_mapVars, Formula.holds_mapVars, meansA.holds, meansB.holds, region, block]

end Abstraction.Means

namespace Abstractor

variable {a b : Abstractor} {ps : List Predicate} {base : Abstraction} {path : PathFormula}

/-- Predicates are about variables without an index, and nothing is taken from the memory. -/
structure WellFormed (a : Abstractor) : Prop where
  registry : a.registry.Valid
  symbolic : a.registry.Symbolic
  uncached : a.settings.abstraction.useCache = false

theorem WellFormed.grows (wellFormed : a.WellFormed) (grown : a.Grows b) : b.WellFormed where
  registry := wellFormed.registry.grows grown.registry
  symbolic p mem := wellFormed.symbolic p (grown.registry.predicates ▸ mem)
  uncached := by rw [grown.settings, wellFormed.uncached]

/-- A path that begins in an abstraction: the abstraction speaks of no index that the path has not
reached. -/
structure Continues (reg : Registry) (ops : Operators) (base : Abstraction) (path : PathFormula) :
    Prop where
  means : base.Means reg ops
  le : base.block.ssa.Le path.ssa
  wellFormed : path.WellFormed

theorem Continues.grows {reg reg' : Registry} (continues : Continues reg ops base path)
    (valid : reg.Valid) (grown : reg.Grows reg') : Continues reg' ops base path :=
  ⟨continues.means.grows valid grown, continues.le, continues.wellFormed⟩

theorem Continues.holds_agrees {reg : Registry} {m' : Assignment}
    (continues : Continues reg ops base path) (agrees : Assignment.Agrees path.ssa m m') :
    base.instantiated.holds ops m = base.instantiated.holds ops m' :=
  agrees.holds (continues.means.within_instantiated.mono continues.le.includes)

theorem Continues.within (continues : Continues a.registry ops base path) (o : FormulaOptions) :
    (reachable o base path).Within path.ssa.upTo :=
  reachable_within o rfl (continues.means.within_instantiated.mono continues.le.includes)
    continues.wellFormed.within

/-- The abstraction of a path contains every state at the end of the path. -/
theorem build_sound (exact : ops.TwosComplement) (wellFormed : a.WellFormed)
    (known : ∀ p ∈ ps, p ∈ a.registry.predicates)
    (continues : Continues a.registry ops base path) :
    Ensures (build base path ps) a (fun _ => True) (fun _ _ => True) fun r b => a.Grows b ∧
      r.Means b.registry ops ∧ r.block = path ∧
        ∀ m s, Assignment.At m path.ssa s → base.instantiated.holds ops m = true →
          path.formula.holds ops m = true → b.registry.holdsIn ops s.assignment r.region = true := by
  have valid := wellFormed.registry
  refine (build_ensures valid known base path).imp (fun r b built => ?_) fun _ _ _ => trivial
  cases built with
  | trivial none quiet top =>
    subst top
    have everything (m : Assignment) : b.registry.holdsIn ops m .top = true := by
      simp [Registry.holdsIn, Region.top]
    refine ⟨quiet.toGrows, ⟨Diagram.has_one _, trivial, fun m => ?_, rfl⟩, rfl,
      fun _ s _ _ _ => everything _⟩
    exact (everything m).symm
  | remembered some quiet found =>
    unfold recalled? at found
    rw [wellFormed.uncached] at found
    cases found
  | computed some new computed =>
    have grown := computed.toGrows
    have later := wellFormed.grows grown
    obtain ⟨within, means⟩ := @Registry.toFormula_means _ _ ops _
      later.registry.diagram.ordered later.symbolic _ computed.reads.has computed.formula
    refine ⟨grown, ⟨computed.reads.has, within, means, ?_⟩, computed.block, ?_⟩
    · rw [computed.instantiated, computed.block]
    · intro m s reads start holds
      exact computed.contains exact valid later.uncached
        (fun p mem => known p (mem_of_mem_selected mem))
        (fun p mem => (wellFormed.symbolic p (known p (mem_of_mem_selected mem))).mono
          Vocabulary.arithmetic_includes_symbolic)
        ((continues.within _).mono (Vocabulary.arithmetic_includes_upTo _))
        (reachable_holds exact _ start holds)
        (later.registry.reflects_store later.symbolic
          (fun p mem => grown.registry.predicates ▸ known p (mem_of_mem_selected mem)) reads)

end Abstractor

end ProgramAnalysis
