import Mathlib
import ProgramAnalysis.Proofs.Abstraction.Memory
import ProgramAnalysis.Proofs.Abstraction.SideConditions

/-! Abstractions lose no model of a path. A model gives every predicate the value of its atom at the end of
the path. With these values the symbols of the predicates satisfy the query, no verdict of the solver is
against them, and so they are in the region. -/
namespace ProgramAnalysis

open Attempt (Ensures)
open Solver (Refuted not_refuted)

namespace Vocabulary

theorem words_includes_arithmetic : words.Includes arithmetic := by
  constructor
  · intro c h
    exact h
  · intro x _
    trivial
  · intro x _
    trivial

theorem arithmetic_includes_upTo (ssa : SsaMap) : arithmetic.Includes ssa.upTo := by
  constructor
  · intro c h
    exact h
  · intro x _
    trivial
  · intro x h
    exact h

end Vocabulary

variable {ops : Operators} {m : Assignment} {ssa : SsaMap} {f : Formula}

namespace Formula

theorem arithmetic_instantiate (within : f.Within .arithmetic) (ssa : SsaMap) :
    (f.instantiate ssa).Within .arithmetic := (within_mapVars f).mpr within

end Formula

/-- The values that variables without an index have at the indices `ssa`. -/
def Assignment.read (m : Assignment) (ssa : SsaMap) : Assignment :=
  { m with number := fun x => m.number (x.instantiate ssa) }

theorem Formula.holds_read (f : Formula) (m : Assignment) (ssa : SsaMap) :
    (f.instantiate ssa).holds ops m = f.holds ops (m.read ssa) := Formula.holds_mapVars ..

namespace Registry

variable {reg reg' : Registry} {p : Predicate} {ps : List Predicate} {v : Valuation}

/-- The valuation gives every predicate the value of its atom at the indices `ssa`. -/
def Reflects (reg : Registry) (ops : Operators) (m : Assignment) (ssa : SsaMap)
    (ps : List Predicate) (v : Valuation) : Prop :=
  ∀ p ∈ ps, v (reg.diagram.var p.marker.ref) = (p.atom.instantiate ssa).holds ops m

theorem Reflects.eval (reflects : reg.Reflects ops m ssa ps v) (valid : reg.Valid)
    (known : ∀ p ∈ ps, p ∈ reg.predicates) (mem : p ∈ ps) :
    reg.diagram.eval v p.marker.ref = (p.atom.instantiate ssa).holds ops m :=
  ((valid.marks p (known p mem)).eval v).trans (reflects p mem)

theorem Reflects.subset {qs : List Predicate} (reflects : reg.Reflects ops m ssa ps v)
    (subset : ∀ p ∈ qs, p ∈ ps) : reg.Reflects ops m ssa qs v :=
  fun p mem => reflects p (subset p mem)

theorem Reflects.of_grows (reflects : reg'.Reflects ops m ssa ps v) (valid : reg.Valid)
    (grown : reg.Grows reg') (known : ∀ p ∈ ps, p ∈ reg.predicates) :
    reg.Reflects ops m ssa ps v := by
  intro p mem
  rw [← grown.diagram.nodes.var_eq (valid.marks p (known p mem)).has]
  exact reflects p mem

theorem Valid.reflects_valuation (valid : reg.Valid) (known : ∀ p ∈ ps, p ∈ reg.predicates)
    (m : Assignment) (ssa : SsaMap) :
    reg.Reflects ops m ssa ps (reg.valuation ops (m.read ssa)) := by
  intro p mem
  rw [valid.valuation_marker (known p mem), Formula.holds_read]

/-- The propositional variables of predicates have the values of their atoms at the indices `ssa`. -/
def withSymbols (reg : Registry) (ops : Operators) (ssa : SsaMap) (m : Assignment) : Assignment :=
  { m with truth := fun x =>
    (reg.ofName? x).elim false fun p => (p.atom.instantiate ssa).holds ops m }

theorem Valid.truth_withSymbols (valid : reg.Valid) (mem : p ∈ reg.predicates) :
    (reg.withSymbols ops ssa m).truth p.name = (p.atom.instantiate ssa).holds ops m := by
  simp [withSymbols, valid.ofName?_name mem]

theorem holds_withSymbols (within : f.Within .arithmetic) :
    f.holds ops (reg.withSymbols ops ssa m) = f.holds ops m :=
  Formula.holds_congr f within (fun _ _ => rfl) fun _ none => none.elim

end Registry

namespace Abstractor

variable {a : Abstractor} {reg : Registry} {ps : List Predicate} {v : Valuation}

theorem leaves_of_judged (integral : ops.Integral) {limits : SolverLimits} {g : Formula} {w : Verdict}
    (wordsF : f.Within .words) (wordsG : g.Within .words) (holds : f.holds ops m = true)
    (judged : Judged limits f g w) : w.Leaves (g.holds ops m) := by
  have with_ {h : Formula} (wordsH : h.Within .words) (refuted : Refuted limits (.conj [f, h])) :
      h.holds ops m = false := by
    by_contra true_
    refine not_refuted (m := m) integral (Formula.within_pair wordsF wordsH) ?_ refuted
    exact Formula.holds_conj.mpr (by simpa [holds] using true_)
  cases w with
  | holds =>
    have negated := with_ (Formula.within_negate wordsG) judged
    simpa [Verdict.Leaves] using negated
  | fails => exact with_ wordsG judged.2
  | unknown => trivial

/-- The atoms of predicates are about machine numbers and variables. -/
def Arithmetic (ps : List Predicate) : Prop := ∀ p ∈ ps, p.atom.Within .arithmetic

theorem cartesianHolds_of_model (integral : ops.Integral) (valid : reg.Valid)
    (atoms : Arithmetic ps) (plain : a.settings.abstraction.useCache = false)
    (known : ∀ p ∈ ps, p ∈ reg.predicates) (within : f.Within .arithmetic)
    (holds : f.holds ops m = true) (reflects : reg.Reflects ops m ssa ps v) :
    a.CartesianHolds reg.diagram f ssa ps v := by
  have words := within.mono Vocabulary.words_includes_arithmetic
  constructor
  · apply not_refuted (m := m) integral (Formula.within_join (by simpa using words))
    exact Formula.holds_conj.mpr (by simpa using holds)
  · intro p mem
    obtain ⟨w, judged⟩ := exists_judged a.solver.limits f (p.atom.instantiate ssa)
    have told : a.Told f ssa p w := by
      unfold Told
      rw [plain]
      exact judged
    have inside := (Formula.arithmetic_instantiate (atoms p mem) ssa).mono
      Vocabulary.words_includes_arithmetic
    have leaves := leaves_of_judged integral words inside holds judged
    rw [← reflects.eval valid known mem] at leaves
    exact ⟨w, told, leaves⟩

theorem booleanQuery_holds_iff : (booleanQuery f ssa ps).holds ops m = true ↔
    f.holds ops m = true ∧
      ∀ p ∈ relevant ps, m.truth p.name = (p.atom.instantiate ssa).holds ops m := by
  unfold booleanQuery
  rw [Formula.holds_conj, List.forall_mem_cons, List.forall_mem_map]
  refine and_congr_right fun _ => forall₂_congr fun p _ => ?_
  rw [definition, Formula.holds_equiv, Predicate.symbol, Formula.holds, beq_iff_eq]

theorem booleanQuery_holds (valid : reg.Valid) (atoms : Arithmetic ps)
    (known : ∀ p ∈ ps, p ∈ reg.predicates) (within : f.Within .arithmetic)
    (holds : f.holds ops m = true) :
    (booleanQuery f ssa ps).holds ops (reg.withSymbols ops ssa m) = true := by
  rw [booleanQuery_holds_iff]
  refine ⟨(Registry.holds_withSymbols within).trans holds, fun p inside => ?_⟩
  have mem := List.mem_of_mem_filter inside
  rw [valid.truth_withSymbols (known p mem),
    Registry.holds_withSymbols (Formula.arithmetic_instantiate (atoms p mem) ssa)]

theorem booleanQuery_within (atoms : Arithmetic ps) (within : f.Within .arithmetic) :
    (booleanQuery f ssa ps).Within .words := by
  apply Formula.within_join
  rw [List.forall_mem_cons]
  constructor
  · exact within.mono Vocabulary.words_includes_arithmetic
  · intro g mem
    obtain ⟨p, inside, rfl⟩ := List.mem_map.mp mem
    have atom := Formula.arithmetic_instantiate (atoms p (List.mem_of_mem_filter inside)) ssa
    have symbol : p.symbol.Within .words := trivial
    exact Formula.within_equiv symbol (atom.mono Vocabulary.words_includes_arithmetic)

theorem sees_of_holds (valid : reg.Valid) (known : ∀ p ∈ ps, p ∈ reg.predicates)
    {k : Skeleton} {path : List Int} (holds : k.Holds ops (reg.withSymbols ops ssa m) path)
    (reflects : reg.Reflects ops m ssa ps v) :
    Prover.Sees reg.diagram k (ps.map fun p => (p.symbol, p.marker)) path v := by
  refine Prover.sees_of_agrees holds (List.forall_mem_map.mpr fun p mem => ?_)
  rw [reflects.eval valid known mem, Predicate.symbol, Formula.holds,
    valid.truth_withSymbols (known p mem)]

theorem booleanHolds_of_model (integral : ops.Integral) (valid : reg.Valid)
    (atoms : Arithmetic ps) (known : ∀ p ∈ ps, p ∈ reg.predicates)
    (decided : BooleanDecided a.solver.limits f ssa ps) (within : f.Within .arithmetic)
    (holds : f.holds ops m = true) (reflects : reg.Reflects ops m ssa ps v) :
    BooleanHolds a.solver.limits reg.diagram f ssa ps v := by
  have query : (booleanQuery f ssa ps).holds ops (reg.withSymbols ops ssa m) = true :=
    booleanQuery_holds valid atoms known within holds
  have words : (booleanQuery f ssa ps).Within .words := booleanQuery_within atoms within
  unfold BooleanHolds
  split
  · exact not_refuted integral words query
  · rename_i some
    obtain ⟨k, made, answers⟩ := decided some
    have encodes := Skeleton.ofFormula_encodes made
    have whole : (Formula.conj [booleanQuery f ssa ps]).holds ops
        (reg.withSymbols ops ssa m) = true := Formula.holds_conj.mpr (by simpa using query)
    obtain ⟨path, mem, satisfied⟩ := encodes.exists_path whole
    have literals := encodes.literals_within (Formula.within_join (by simpa using words)) path
    have decides := Solver.decides_of_holds integral literals (answers path mem) satisfied
    have subset : ∀ p ∈ relevant ps, p ∈ ps := fun p mem => List.mem_of_mem_filter mem
    exact ⟨k, made, path, mem, decides, sees_of_holds valid
      (fun p mem => known p (subset p mem)) satisfied (reflects.subset subset)⟩

theorem holds_of_model (integral : ops.Integral) (valid : reg.Valid)
    (atoms : Arithmetic ps) (plain : a.settings.abstraction.useCache = false)
    (known : ∀ p ∈ ps, p ∈ reg.predicates)
    (decided : a.settings.abstraction.cartesian = false → BooleanDecided a.solver.limits f ssa ps)
    (within : f.Within .arithmetic) (holds : f.holds ops m = true)
    (reflects : reg.Reflects ops m ssa ps v) : a.Holds reg.diagram f ssa ps v := by
  unfold Holds
  split
  · exact cartesianHolds_of_model integral valid atoms plain known within holds reflects
  · rename_i boolean
    exact booleanHolds_of_model integral valid atoms known (decided (Bool.eq_false_iff.mpr boolean))
      within holds reflects

/-! ### The abstraction of a path -/

variable {o : AnalysisOptions} {b : Abstractor} {base r : Abstraction} {path : PathFormula}

theorem strengthened_holds (exact : ops.TwosComplement) (o : FormulaOptions)
    (holds : f.holds ops m = true) : (strengthened o f).holds ops m = true := by
  rw [holds_strengthened exact.digitwise, holds]

theorem reachable_holds (exact : ops.TwosComplement) (o : FormulaOptions)
    (start : base.instantiated.holds ops m = true) (holds : path.formula.holds ops m = true) :
    (reachable o base path).holds ops m = true := by
  unfold reachable
  rw [Formula.holds_conj]
  simpa [start] using strengthened_holds exact o holds

theorem reachable_within {L : Vocabulary} (o : FormulaOptions) (zero : L.number 0)
    (start : base.instantiated.Within L) (within : path.formula.Within L) :
    (reachable o base path).Within L := by
  refine Formula.within_pair start ?_
  unfold strengthened
  split
  · exact Formula.within_pair within (Formula.within_bitwiseAxioms zero within)
  · exact within

theorem Computed.contains (exact : ops.TwosComplement) (valid : a.registry.Valid)
    (plain : b.settings.abstraction.useCache = false) (known : ∀ p ∈ ps, p ∈ a.registry.predicates)
    (atoms : Arithmetic ps) {q : AbstractionQuery} (within : q.formula.Within .arithmetic)
    (computed : Computed q path ps a b r) (holds : q.formula.holds ops m = true)
    (reflects : b.registry.Reflects ops m path.ssa ps v) :
    b.registry.diagram.eval v r.region.ref = true := by
  have grown := computed.toGrows
  rw [computed.reads.eval]
  refine holds_of_model exact.toIntegral valid atoms plain known ?_ within holds
    (reflects.of_grows valid grown.registry known)
  rw [grown.settings, grown.limits]
  exact computed.decided

theorem Computed.instantiated_holds (valid : a.registry.Valid) {q : AbstractionQuery}
    (computed : Computed q path ps a b r)
    (contains : b.registry.holdsIn ops (m.read path.ssa) r.region = true) :
    r.instantiated.holds ops m = true := by
  have grown := valid.grows computed.registry
  have means (m : Assignment) : r.formula.holds ops m = b.registry.holdsIn ops m r.region :=
    (Registry.toFormula_means grown.diagram.ordered (fun p _ => p.atom.within_any)
      computed.reads.has computed.formula).2 m
  rw [computed.instantiated, Formula.holds_read, means]
  exact contains

/-- Without a memory, after whatever happened before, the abstraction of a path contains every model of
the path: the values of the predicates are in its region, and its formula holds. -/
theorem build_contains (history : History o a) (exact : ops.TwosComplement)
    (uncached : a.settings.abstraction.useCache = false)
    (known : ∀ p ∈ ps, p ∈ a.registry.predicates) (atoms : Arithmetic ps)
    (withinBase : base.instantiated.Within .arithmetic) (withinPath : path.formula.Within .arithmetic)
    (run : (build base path ps).run a = .ok (.ok r, b))
    (start : base.instantiated.holds ops m = true) (holds : path.formula.holds ops m = true) :
    (∀ v, b.registry.Reflects ops m path.ssa ps v →
      b.registry.diagram.eval v r.region.ref = true) ∧ r.instantiated.holds ops m = true := by
  have valid := history.coherent.registry
  have built := (build_ensures valid known base path).of_ok run
  cases built with
  | trivial none quiet top =>
    subst top
    constructor
    · intro v _
      exact Diagram.eval_one ..
    · rfl
  | remembered some quiet found =>
    unfold recalled? at found
    rw [uncached] at found
    cases found
  | computed some new computed =>
    have grown := computed.toGrows
    have chosen (p : Predicate) (mem : p ∈ selected ps) : p ∈ ps := mem_of_mem_selected mem
    have contains {v : Valuation} (reflects : b.registry.Reflects ops m path.ssa ps v) :=
      computed.contains exact valid (by rw [grown.settings, uncached])
        (fun p mem => known p (chosen p mem)) (fun p mem => atoms p (chosen p mem))
        (reachable_within _ rfl withinBase withinPath) (reachable_holds exact _ start holds)
        (reflects.subset chosen)
    constructor
    · exact fun v => contains
    · have later := valid.grows grown.registry
      apply computed.instantiated_holds valid
      apply contains
      apply later.reflects_valuation
      rw [grown.registry.predicates]
      exact known

/-! ### The abstraction of a test

After a test of `x < 1` the predicate `x < 1` is true, and both abstractions say exactly this. -/

namespace Renewed

variable {p : Predicate} {d : Diagram} {v : Valuation}

def definedQuery : Formula := .nary .and [smallAt 1, .iff (.prop "PRED0") (smallAt 1)]

theorem booleanQuery_tested (id : p.id = 0) (atom : p.atom = small) :
    .conj [booleanQuery (smallAt 1) tested.ssa [p]] = definedQuery := by
  obtain ⟨_, _, _⟩ := p
  subst id atom
  cbv

/-- Values of `x` and of the symbol of the predicate. -/
def valued (first named : Bool) : Assignment := ⟨fun _ => if first then 0 else 1, fun _ => named⟩

theorem forces_defined :
    Solver.Forces .standard definedQuery [(smallAt 1, true), (.prop "PRED0", true)] := by
  refine ⟨by cbv, Skeleton.free_pair valued (by decide), fun m holds => ?_⟩
  have both : (smallAt 1).holds .standard m = true ∧
      (.prop "PRED0" : Formula).holds .standard m = (smallAt 1).holds .standard m := by
    simpa [definedQuery, Formula.holds, Formula.holdsNary, Connective.combine, Connective.unit]
      using holds
  simp [both]

theorem decides_defined (k : Skeleton) (path : List Int)
    (literals : k.literals path = [(smallAt 1, true), (.prop "PRED0", true)]) :
    k.Decides {} path true := by
  unfold Skeleton.Decides Skeleton.consistent?
  rw [literals]
  cbv

theorem relevant_small (atom : p.atom = small) : relevant [p] = [p] := by
  simp [relevant, atom, small]

theorem booleanAsked_tested (id : p.id = 0) (atom : p.atom = small) :
    BooleanAsked {} (smallAt 1) tested.ssa [p] := by
  rw [BooleanAsked, if_neg (by simp [relevant_small atom]), booleanQuery_tested id atom]
  exact forces_defined.answered (by cbv) decides_defined

theorem important_tested (id : p.id = 0) (atom : p.atom = small) :
    (relevant [p]).map (fun p => (p.symbol, p.marker)) = [(.prop "PRED0", p.marker)] := by
  have symbol : p.symbol = .prop "PRED0" := by
    obtain ⟨_, _, _⟩ := p
    subst id
    cbv
  rw [relevant_small atom, List.map_singleton, symbol]

theorem sees_defined {k : Skeleton} {path : List Int} (made : Skeleton.ofFormula definedQuery = .ok k)
    (mem : path ∈ k.diagram.paths k.root) :
    Prover.Sees d k [(.prop "PRED0", p.marker)] path v ↔ d.eval v p.marker.ref = true := by
  rw [Prover.sees_iff (Skeleton.ofFormula_encodes made) mem (by simp), forces_defined.literals made mem]
  simp [smallAt]

theorem booleanHolds_tested (id : p.id = 0) (atom : p.atom = small) :
    BooleanHolds {} d (smallAt 1) tested.ssa [p] v ↔ d.eval v p.marker.ref = true := by
  rw [BooleanHolds, if_neg (by simp [relevant_small atom]), booleanQuery_tested id atom,
    important_tested id atom]
  constructor
  · rintro ⟨k, made, path, mem, -, seen⟩
    exact (sees_defined made mem).mp seen
  · intro value
    obtain ⟨k, made⟩ :=
      Skeleton.exists_ofFormula (show Skeleton.room definedQuery + 2 < 0x7fffffff by cbv)
    have holds : definedQuery.holds .standard (valued true true) = true := by decide
    obtain ⟨path, mem, -⟩ := (Skeleton.ofFormula_encodes made).exists_path holds
    exact ⟨k, made, path, mem, decides_defined k path (forces_defined.literals made mem),
      (sees_defined made mem).mpr value⟩

theorem queries_answered_tested {a : Abstractor} (limits : a.solver.limits = {}) (id : p.id = 0)
    (atom : p.atom = small) : a.QueriesAnswered
      (reachable a.settings.formula (.top .empty) tested) tested.ssa (selected [p]) := by
  by_cases cartesian : a.settings.abstraction.cartesian = true
  · exact queries_answered limits cartesian rfl (by rw [atom]; exact asked_tested)
  · unfold QueriesAnswered
    rw [if_neg cartesian, limits, reachable_small _ rfl, selected_singleton]
    exact booleanAsked_tested id atom

theorem cartesianHolds_tested {a : Abstractor} (limits : a.solver.limits = {})
    (told : a.Told (smallAt 1) tested.ssa p .holds) :
    a.CartesianHolds d (smallAt 1) tested.ssa [p] v ↔ d.eval v p.marker.ref = true := by
  unfold CartesianHolds
  rw [limits, List.forall_mem_singleton, told.exists_iff]
  exact and_iff_right not_refuted_small

/-- In either mode the abstraction of the test, computed before any verdict is known, is the predicate. -/
theorem region_tested {a b : Abstractor} {r : Abstraction} (valid : a.registry.Valid)
    (known : p ∈ a.registry.predicates) (limits : a.solver.limits = {})
    (new : a.recalled? (.top .empty) tested [p] = none) (verdicts : a.memory.verdicts = [])
    (id : p.id = 0) (atom : p.atom = small)
    (run : (build (.top .empty) tested [p]).run a = .ok (.ok r, b)) : r.region = p.marker := by
  have knows := List.forall_mem_singleton.mpr known
  have built := (build_ensures valid knows _ _).of_ok run
  have computed := built.computed_of_new (List.cons_ne_nil p []) new
  rw [queryOf, reachable_small _ rfl, selected_singleton] at computed
  have grown := computed.toGrows
  have marks := valid.marks p known
  have mem := List.mem_singleton_self p
  have later := valid.grows grown.registry
  apply congrArg Region.mk
  apply later.diagram.ordered.eq_of_eval computed.reads.has (grown.registry.diagram.has marks.has)
  intro v
  rw [Bool.eq_iff_iff, computed.reads.eval,
    grown.registry.diagram.nodes.eval_valid valid.diagram marks.has]
  unfold Holds
  split
  · rename_i cartesian
    rw [grown.settings] at cartesian
    have satisfiable : ¬ Refuted a.solver.limits (.conj [smallAt 1]) := limits ▸ not_refuted_small
    obtain ⟨w, told⟩ := computed.told cartesian satisfiable p mem
    have judged := computed.judged_of_told valid knows verdicts mem told
    rw [limits, atom] at judged
    obtain rfl : w = .holds := judged.unique (refuted_tested {})
    exact cartesianHolds_tested (grown.limits.trans limits) told
  · rw [grown.limits, limits]
    exact booleanHolds_tested id atom

/-- A model of the test is in the abstraction, which is the predicate. -/
def ContainsTested (cartesian : Bool) : Prop :=
  ∃ (o : AnalysisOptions) (a b : Abstractor) (r : Abstraction) (p : Predicate), History o a ∧
    a.settings.abstraction = { cartesian, useCache := false } ∧ p ∈ a.registry.predicates ∧
    p.atom = small ∧ (build (.top .empty) tested [p]).run a = .ok (.ok r, b) ∧
    r.region = p.marker ∧
    tested.formula.holds .standard (values true false) = true ∧
    (∀ v, v (b.registry.diagram.var p.marker.ref) = true →
      b.registry.diagram.eval v r.region.ref = true) ∧
    r.instantiated.holds .standard (values true false) = true

end Renewed

open Renewed in
/-- Both abstractions of a test of `x < 1`, for the predicate `x < 1`. -/
theorem build_contains_tested : ContainsTested true ∧ ContainsTested false := by
  have either (cartesian : Bool) : ContainsTested cartesian := by
    let o : AnalysisOptions := ⟨{}, {}, { cartesian, useCache := false }, {}⟩
    obtain ⟨p, reg, history, valid, single, id, atom, few⟩ := History.exists_predicate o small
    let a : Abstractor := idle o reg
    have mem : p ∈ a.registry.predicates := by simp [a, idle, single]
    have known : ∀ q ∈ [p], q ∈ a.registry.predicates := List.forall_mem_singleton.mpr mem
    have answered := queries_answered_tested (a := a) rfl id atom
    obtain ⟨r, b, run, -⟩ := (build_returns valid known (Nat.le_trans few (by decide)) answered).exists_run
    have atoms : Arithmetic [p] := List.forall_mem_singleton.mpr (by rw [atom]; cbv)
    have base : (Abstraction.top .empty).instantiated.Within .arithmetic := trivial
    have path : tested.formula.Within .arithmetic := by cbv
    have holds : tested.formula.holds .standard (values true false) = true := (holds_values true false).1
    obtain ⟨contains, instantiated⟩ := build_contains (m := values true false) history
      Operators.twosComplement_standard rfl known atoms base path run rfl holds
    refine ⟨o, a, b, r, p, history, rfl, mem, atom, run,
      region_tested valid mem rfl rfl rfl id atom run, holds, fun v value => ?_, instantiated⟩
    have reflects : b.registry.Reflects .standard (values true false) tested.ssa [p] v := by
      intro q inside
      obtain rfl := List.mem_singleton.mp inside
      rw [value, atom]
      exact (holds_values true false).1.symm
    exact contains v reflects
  exact ⟨either true, either false⟩

end Abstractor

end ProgramAnalysis
