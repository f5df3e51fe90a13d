import Mathlib
import ProgramAnalysis.Proofs.Abstraction.Models
import ProgramAnalysis.Proofs.Predicate.Translation

/-! The Boolean abstraction beside the Cartesian one. What a verdict says of a predicate is so in every
model of the formula, hence it stands on every path of the query that has a model, and a valuation that
sees the path agrees with the verdict. The Boolean abstraction says nothing of predicates that are never
true, and it may accept a path that only rational numbers satisfy; where neither matters it is contained
in the Cartesian one. -/
namespace ProgramAnalysis

open Attempt (Ensures)
open Solver (Answered Refuted not_refuted)

theorem Formula.conj_true (f : Formula) : conj [f, .bool true] = conj [f] := by
  cases f with
  | bool b => cases b <;> rfl
  | nary c fs => cases c <;> rfl
  | _ => rfl

namespace Abstractor

variable {ops : Operators} {m : Assignment} {reg : Registry} {limits : SolverLimits} {f : Formula}
  {s : SsaMap} {p : Predicate} {ps : List Predicate} {v : Valuation} {w : Verdict}

/-- A valuation that comes from accepted paths, none of which has a model. -/
structure Spurious (ops : Operators) (limits : SolverLimits) (d : Diagram) (f : Formula) (s : SsaMap)
    (ps : List Predicate) (v : Valuation) : Prop where
  some : relevant ps ≠ []
  empty : ∀ k, Skeleton.ofFormula (.conj [booleanQuery f s ps]) = .ok k →
    ∀ path ∈ k.diagram.paths k.root, k.Decides limits path true →
      Prover.Sees d k ((relevant ps).map fun p => (p.symbol, p.marker)) path v →
        ∀ m, ¬ k.Holds ops m path

theorem allows_of_sees (integral : ops.Integral) (valid : reg.Valid)
    (known : ∀ p ∈ ps, p ∈ reg.predicates) (wordsF : f.Within .words)
    (wordsP : p.atom.Within .words) {k : Skeleton}
    (made : Skeleton.ofFormula (.conj [booleanQuery f s ps]) = .ok k) {path : List Int}
    (mem : path ∈ k.diagram.paths k.root) (model : k.Holds ops m path)
    (sees : Prover.Sees reg.diagram k ((relevant ps).map fun p => (p.symbol, p.marker)) path v)
    (inside : p ∈ relevant ps) (judged : Judged limits f (p.atom.instantiate s) w) :
    w.Allows reg.diagram p v := by
  have encodes := Skeleton.ofFormula_encodes made
  have wordsG : (p.atom.instantiate s).Within .words := (Formula.within_mapVars _).mpr wordsP
  have single : ∀ r, (p.symbol, r) ∈ (relevant ps).map (fun p => (p.symbol, p.marker)) →
      r = p.marker := by
    intro r pair
    obtain ⟨q, memQ, same⟩ := List.mem_map.mp pair
    obtain ⟨symbol, rfl⟩ := Prod.mk.inj same
    have name : q.name = p.name := Formula.prop.inj symbol
    rw [valid.eq_of_id (known q (List.mem_of_mem_filter memQ))
      (known p (List.mem_of_mem_filter inside)) (Predicate.id_of_name name)]
  -- A verdict fixes the symbol in all models of the query, so it stands on the path and is seen.
  have value {b : Bool} (forced : ∀ m, f.holds ops m = true →
      (p.atom.instantiate s).holds ops m = b) : reg.diagram.eval v p.marker.ref = b := by
    have literal : (p.symbol, b) ∈ k.literals path := by
      apply encodes.mem_literals_of_forced mem model
      intro m holds
      rw [Formula.holds_conj, List.forall_mem_singleton, booleanQuery_holds_iff] at holds
      exact (holds.2 p inside).trans (forced m holds.1)
    have nonzero := Diagram.natAbs_ne_zero_of_mem_paths encodes.varsBelow mem
    exact sees _ (Prover.mem_visible encodes.faithful.nodup nonzero
      (List.mem_map_of_mem inside) single literal)
  cases w with
  | holds => exact value fun m holds => leaves_of_judged integral wordsF wordsG holds judged
  | fails => exact value fun m holds => leaves_of_judged integral wordsF wordsG holds judged
  | unknown => trivial

theorem allows_of_never (satisfiable : ¬ Refuted limits (.conj [f])) (never : p.atom = .bool false)
    (judged : Judged limits f (p.atom.instantiate s) w)
    (value : reg.diagram.eval v p.marker.ref = false) : w.Allows reg.diagram p v := by
  cases w with
  | holds =>
    rw [never] at judged
    have refuted : Refuted limits (.conj [f, .bool true]) := judged
    rw [Formula.conj_true] at refuted
    exact (satisfiable refuted).elim
  | fails => exact value
  | unknown => trivial

theorem allows_or_spurious (integral : ops.Integral) (valid : reg.Valid)
    (known : ∀ p ∈ ps, p ∈ reg.predicates) (wordsF : f.Within .words)
    (wordsP : ∀ p ∈ ps, p.atom.Within .words)
    (never : ∀ p ∈ ps, p.atom = .bool false → reg.diagram.eval v p.marker.ref = false)
    (boolean : BooleanHolds limits reg.diagram f s ps v) :
    (¬ Refuted limits (.conj [f]) ∧ ∀ p ∈ ps, ∀ w, Judged limits f (p.atom.instantiate s) w →
      w.Allows reg.diagram p v) ∨ Spurious ops limits reg.diagram f s ps v := by
  unfold BooleanHolds at boolean
  split at boolean
  · rename_i none
    have satisfiable : ¬ Refuted limits (.conj [f]) := by
      rwa [booleanQuery, none] at boolean
    refine .inl ⟨satisfiable, fun p mem w judged => ?_⟩
    have absent : p.atom = .bool false := by simpa using List.filter_eq_nil_iff.mp none p mem
    exact allows_of_never satisfiable absent judged (never p mem absent)
  · rename_i some
    rw [or_iff_not_imp_right]
    intro real
    -- A valuation that is not spurious sees a path with a model.
    obtain ⟨k, made, path, mem, m, sees, model⟩ : ∃ k,
        Skeleton.ofFormula (.conj [booleanQuery f s ps]) = .ok k ∧
          ∃ path ∈ k.diagram.paths k.root, ∃ m,
            Prover.Sees reg.diagram k ((relevant ps).map fun p => (p.symbol, p.marker)) path v ∧
              k.Holds ops m path := by
      by_contra none
      refine real ⟨some, fun k made path mem _ sees m model => none ?_⟩
      exact ⟨k, made, path, mem, m, sees, model⟩
    have whole := (Skeleton.ofFormula_encodes made).holds_iff_exists_path.mpr ⟨path, mem, model⟩
    rw [Formula.holds_conj, List.forall_mem_singleton, booleanQuery_holds_iff] at whole
    have satisfiable : ¬ Refuted limits (.conj [f]) := by
      apply not_refuted (m := m) integral (Formula.within_join (by simpa using wordsF))
      exact Formula.holds_conj.mpr (by simpa using whole.1)
    refine ⟨satisfiable, fun p inside w judged => ?_⟩
    by_cases absent : p.atom = .bool false
    · exact allows_of_never satisfiable absent judged (never p inside absent)
    · exact allows_of_sees integral valid known wordsF (wordsP p inside) made mem model sees
        (List.mem_filter.mpr ⟨inside, by simpa using absent⟩) judged

/-! ### Regions -/

/-- Nothing was computed yet, over predicates that exist. -/
def unasked (reg : Registry) (o : AnalysisOptions) (cartesian : Bool) : Abstractor where
  registry := reg
  solver := ⟨o.limits, {}⟩
  settings := ⟨o.formula, { o.abstraction with cartesian }⟩

/-- An abstraction that was built by itself over the predicates, before these became the ones of `reg`. -/
inductive Afresh (cartesian : Bool) (o : AnalysisOptions) (base : Abstraction) (path : PathFormula)
    (ps : List Predicate) (r : Abstraction) (reg : Registry) : Prop
  | build {before : Registry} {a : Abstractor} (valid : before.Valid)
      (known : ∀ p ∈ ps, p ∈ before.predicates)
      (run : (Abstractor.build base path ps).run (unasked before o cartesian) = .ok (.ok r, a))
      (later : a.registry.Adds reg)

variable {a b : Abstractor} {o : AnalysisOptions} {base r : Abstraction} {path : PathFormula}
  {q : AbstractionQuery} {cartesian : Bool}

theorem Computed.eval_later (computed : Computed q path ps a b r) (valid : a.registry.Valid)
    (known : ∀ p ∈ ps, p ∈ a.registry.predicates) (later : b.registry.Adds reg) :
    reg.diagram.eval v r.region.ref = true ↔ b.Holds reg.diagram q.formula path.ssa ps v := by
  have grown := computed.registry.diagram
  rw [later.diagram.eval_valid grown.valid computed.reads.has, computed.reads.eval]
  exact (holds_extends (later.diagram.trans grown.nodes) valid.diagram
    (fun p mem => (valid.marks p (known p mem)).has) v).symm

/-- The computation that an abstraction comes from, with the state `b` after it. -/
structure Origin (cartesian : Bool) (o : AnalysisOptions) (base : Abstraction) (path : PathFormula)
    (ps : List Predicate) (r : Abstraction) (reg before : Registry) (b : Abstractor) : Prop where
  valid : before.Valid
  known : ∀ p ∈ ps, p ∈ before.predicates
  grown : (unasked before o cartesian).Grows b
  later : b.registry.Adds reg
  top : ps = [] → r = .top path
  computed : ps ≠ [] → Computed ((unasked before o cartesian).queryOf base path (selected ps)) path
    (selected ps) (unasked before o cartesian) b r

theorem Afresh.origin (afresh : Afresh cartesian o base path ps r reg) :
    ∃ before b, Origin cartesian o base path ps r reg before b := by
  obtain ⟨valid, known, run, later⟩ := afresh
  rename_i before b
  have built := (build_ensures (a := unasked before o cartesian) valid known base path).of_ok run
  cases built with
  | trivial none quiet top =>
    exact ⟨before, b, valid, known, quiet.toGrows, later, fun _ => top, fun some => (some none).elim⟩
  | remembered _ _ found =>
    unfold recalled? remembered? at found
    simp [unasked] at found
  | computed some _ computed =>
    exact ⟨before, b, valid, known, computed.toGrows, later, fun none => (some none).elim,
      fun _ => computed⟩

variable {c : Abstraction} {before : Registry}

theorem Origin.chosen (origin : Origin cartesian o base path ps r reg before b) :
    ∀ p ∈ selected ps, p ∈ before.predicates := fun p mem =>
  origin.known p (mem_of_mem_selected mem)

theorem Afresh.known (afresh : Afresh cartesian o base path ps r reg) :
    reg.Valid ∧ ∀ p ∈ ps, p ∈ reg.predicates := by
  obtain ⟨before, b, origin⟩ := afresh.origin
  refine ⟨origin.later.valid, fun p mem => origin.later.predicates.mem ?_⟩
  rw [origin.grown.registry.predicates]
  exact origin.known p mem

theorem Afresh.boolean_iff (afresh : Afresh false o base path ps r reg) (some : ps ≠ []) :
    reg.diagram.eval v r.region.ref = true ↔
      BooleanHolds o.limits reg.diagram (reachable o.formula base path) path.ssa (selected ps) v := by
  obtain ⟨before, b, origin⟩ := afresh.origin
  rw [(origin.computed some).eval_later origin.valid origin.chosen origin.later]
  unfold Holds
  rw [origin.grown.settings, origin.grown.limits]
  exact Iff.rfl

theorem Afresh.cartesian_iff (afresh : Afresh true o base path ps r reg) (some : ps ≠ []) :
    reg.diagram.eval v r.region.ref = true ↔
      ¬ Refuted o.limits (.conj [reachable o.formula base path]) ∧ ∀ p ∈ selected ps, ∀ w,
        Judged o.limits (reachable o.formula base path) (p.atom.instantiate path.ssa) w →
          w.Allows reg.diagram p v := by
  obtain ⟨before, b, origin⟩ := afresh.origin
  have computed := origin.computed some
  rw [computed.eval_later origin.valid origin.chosen origin.later]
  unfold Holds
  rw [origin.grown.settings]
  unfold CartesianHolds
  rw [origin.grown.limits]
  refine and_congr_right fun satisfiable => forall₂_congr fun p mem => ?_
  obtain ⟨w, told⟩ := computed.told rfl satisfiable p mem
  have judged := computed.judged_of_told origin.valid origin.chosen rfl mem told
  rw [told.exists_iff]
  constructor
  · intro allows w' judged'
    rwa [← judged.unique judged']
  · exact fun all => all w judged

/-- One abstraction after the other, the Boolean one first. -/
theorem exists_afresh (valid : reg.Valid) (known : ∀ p ∈ ps, p ∈ reg.predicates)
    (few : reg.diagram.vars ≤ 4) (answered : ∀ cartesian, (unasked reg o cartesian).QueriesAnswered
      (reachable o.formula base path) path.ssa (selected ps)) : ∃ r c later,
    Afresh false o base path ps r later ∧ Afresh true o base path ps c later := by
  obtain ⟨r, a, runR, -⟩ := (build_returns (a := unasked reg o false) valid known few
    (answered false)).exists_run
  have builtR := (build_ensures (a := unasked reg o false) valid known base path).of_ok runR
  have laterR := (builtR.later valid).registry
  have knownA : ∀ p ∈ ps, p ∈ a.registry.predicates := fun p mem =>
    laterR.predicates.mem (known p mem)
  have fewA : a.registry.diagram.vars ≤ 4 := builtR.grows.registry.diagram.vars.trans_le few
  obtain ⟨c, b, runC, -⟩ := (build_returns (a := unasked a.registry o true) laterR.valid knownA fewA
    ((answered true).of_same rfl rfl)).exists_run
  have builtC := (build_ensures (a := unasked a.registry o true) laterR.valid knownA base path).of_ok runC
  have laterC := (builtC.later laterR.valid).registry
  refine ⟨r, c, b.registry, .build valid known runR laterC, .build laterR.valid knownA runC ?_⟩
  exact ⟨laterC.valid, List.prefix_refl _, .refl _⟩

/-! ### Both regions -/

/-- Built by themselves over the same predicates, the Boolean abstraction of a path is contained in the
Cartesian one, where the predicates that are never true have the value false, but for valuations that
only come from paths without a model. -/
theorem boolean_entails_cartesian (integral : ops.Integral)
    (boolean : Afresh false o base path ps r reg) (cartesian : Afresh true o base path ps c reg)
    (wordsBase : base.instantiated.Within .words) (wordsPath : path.formula.Within .words)
    (wordsAtoms : ∀ p ∈ ps, p.atom.Within .words)
    (never : ∀ p ∈ ps, p.atom = .bool false → reg.diagram.eval v p.marker.ref = false)
    (inside : reg.diagram.eval v r.region.ref = true) :
    reg.diagram.eval v c.region.ref = true ∨
      Spurious ops o.limits reg.diagram (reachable o.formula base path) path.ssa (selected ps) v := by
  by_cases none : ps = []
  · obtain ⟨before, b, origin⟩ := cartesian.origin
    rw [origin.top none]
    exact .inl (Diagram.eval_one ..)
  obtain ⟨valid, known⟩ := boolean.known
  have chosen (p : Predicate) (mem : p ∈ selected ps) : p ∈ ps := mem_of_mem_selected mem
  rw [boolean.boolean_iff none] at inside
  rw [cartesian.cartesian_iff none]
  exact allows_or_spurious integral valid (fun p mem => known p (chosen p mem))
    (reachable_within o.formula rfl wordsBase wordsPath) (fun p mem => wordsAtoms p (chosen p mem))
    (fun p mem => never p (chosen p mem)) inside

/-! ### The abstractions of a test -/

namespace Renewed

theorem exists_afresh_tested : ∃ (o : AnalysisOptions) (r c : Abstraction) (reg : Registry)
    (p : Predicate), o.limits = {} ∧ p.id = 0 ∧ p.atom = small ∧
      Afresh false o (.top .empty) tested [p] r reg ∧ Afresh true o (.top .empty) tested [p] c reg := by
  obtain ⟨d, empty⟩ := Registry.exists_empty
  obtain ⟨p, reg, -, adds, single, id, atom, few⟩ := Registry.exists_predicate empty small
  have known : ∀ q ∈ [p], q ∈ reg.predicates := by simp [single]
  let o : AnalysisOptions := ⟨{}, {}, {}, {}⟩
  obtain ⟨r, c, later, boolean, cartesian⟩ := exists_afresh (o := o) adds.valid known
    (Nat.le_trans adds.valid.vars_le (by omega)) fun _ => queries_answered_tested rfl id atom
  exact ⟨o, r, c, later, p, rfl, id, atom, boolean, cartesian⟩

/-- The only path of the query has a model. -/
theorem not_spurious_tested {d : Diagram} (id : p.id = 0) (atom : p.atom = small)
    (value : d.eval v p.marker.ref = true) :
    ¬ Spurious .standard {} d (smallAt 1) tested.ssa [p] v := by
  intro spurious
  obtain ⟨k, made⟩ :=
    Skeleton.exists_ofFormula (show Skeleton.room definedQuery + 2 < 0x7fffffff by cbv)
  have holds : definedQuery.holds .standard (valued true true) = true := by decide
  obtain ⟨path, mem, model⟩ := (Skeleton.ofFormula_encodes made).exists_path holds
  refine spurious.empty k ((booleanQuery_tested id atom).symm ▸ made) path mem
    (decides_defined k path (forces_defined.literals made mem)) ?_ _ model
  rw [important_tested id atom]
  exact (sees_defined made mem).mpr value

end Renewed

open Renewed in
/-- After a test of `x < 1` both abstractions are the predicate `x < 1`. -/
theorem boolean_entails_cartesian_tested : ∃ (o : AnalysisOptions) (r c : Abstraction) (reg : Registry)
    (p : Predicate), p.atom = small ∧ Afresh false o (.top .empty) tested [p] r reg ∧
      Afresh true o (.top .empty) tested [p] c reg ∧ ∀ v,
        (reg.diagram.eval v r.region.ref = true ↔ reg.diagram.eval v p.marker.ref = true) ∧
        (reg.diagram.eval v c.region.ref = true ↔ reg.diagram.eval v p.marker.ref = true) := by
  obtain ⟨o, r, c, reg, p, limits, id, atom, boolean, cartesian⟩ := exists_afresh_tested
  have exact (v : Valuation) :
      reg.diagram.eval v r.region.ref = true ↔ reg.diagram.eval v p.marker.ref = true := by
    rw [boolean.boolean_iff (List.cons_ne_nil p []), limits, reachable_small _ rfl, selected_singleton]
    exact booleanHolds_tested id atom
  refine ⟨o, r, c, reg, p, atom, boolean, cartesian,
    fun v => ⟨exact v, fun inside => ?_, fun value => ?_⟩⟩
  · rw [cartesian.cartesian_iff (List.cons_ne_nil p []), limits, reachable_small _ rfl] at inside
    have holds : Judged {} (smallAt 1) (p.atom.instantiate tested.ssa) .holds := by
      rw [atom]
      exact refuted_tested {}
    exact inside.2 p (by simp [selected_singleton]) .holds holds
  have words : ∀ q ∈ [p], q.atom.Within .words := List.forall_mem_singleton.mpr (by rw [atom]; cbv)
  have path : tested.formula.Within .words := by cbv
  have possible : ∀ q ∈ [p], q.atom = .bool false → reg.diagram.eval v q.marker.ref = false :=
    List.forall_mem_singleton.mpr fun never => by cases atom.symm.trans never
  have either := boolean_entails_cartesian Operators.integral_standard boolean cartesian trivial path
    words possible ((exact v).mpr value)
  rw [limits, reachable_small _ rfl, selected_singleton] at either
  exact either.resolve_right (not_spurious_tested id atom value)

/-! ### A predicate that is never true -/

theorem boolean_never (never : p.atom = .bool false)
    (boolean : Afresh false o (.top .empty) .empty [p] r reg) (v : Valuation) :
    reg.diagram.eval v r.region.ref = true := by
  rw [boolean.boolean_iff (List.cons_ne_nil p []), BooleanHolds, if_pos (selected_never never),
    booleanQuery, selected_never never, reachable_empty]
  exact not_refuted (m := ⟨fun _ => 0, fun _ => false⟩) Operators.integral_standard trivial rfl

/-- The value true of a predicate that is never true is in the Boolean abstraction only. -/
theorem never_in_boolean_only : ∃ (o : AnalysisOptions) (b c : Abstraction) (reg : Registry)
    (p : Predicate) (v : Valuation), p.atom = .bool false ∧
      Afresh false o (.top .empty) .empty [p] b reg ∧ Afresh true o (.top .empty) .empty [p] c reg ∧
      reg.diagram.eval v b.region.ref = true ∧ reg.diagram.eval v c.region.ref = false := by
  obtain ⟨d, empty⟩ := Registry.exists_empty
  obtain ⟨p, before, -, adds, single, -, never, few⟩ := Registry.exists_predicate empty (.bool false)
  have member : ∀ q ∈ [p], q ∈ before.predicates := by simp [single]
  let o : AnalysisOptions := ⟨{}, {}, {}, {}⟩
  obtain ⟨b, c, reg, boolean, cartesian⟩ := exists_afresh (o := o) adds.valid member
    (Nat.le_trans adds.valid.vars_le (by omega)) fun _ => answered_never never
  obtain ⟨valid, known⟩ := cartesian.known
  refine ⟨o, b, c, reg, p, fun _ => true, never, boolean, cartesian,
    boolean_never never boolean _, ?_⟩
  rw [Bool.eq_false_iff, ne_eq, cartesian.cartesian_iff (List.cons_ne_nil p []), reachable_empty]
  rintro ⟨satisfiable, allows⟩
  have judged : Judged {} (.bool true) (p.atom.instantiate PathFormula.empty.ssa) .fails := by
    rw [never]
    exact ⟨satisfiable, Solver.refuted_false {}⟩
  have value := allows p (by simp [selected_singleton]) .fails judged
  rw [Verdict.Allows, Verdict.Leaves,
    (valid.marks p (known p (List.mem_singleton_self p))).eval] at value
  cases value

/-! ### A path that only rational numbers satisfy

After the path a sum is even. That it is odd and that `x` is even leads to a path of the Boolean query
on which the equations have rational solutions. The Cartesian abstraction asks for an odd sum alone, and
then the equations are solved in another order, which finds that they have no integer solution. -/

namespace Parity

def sum : Term := .binary .add (.symbolic "x") (.binary .mul (.const 3) (.symbolic "y"))

def twice (x : String) : Term := .binary .mul (.const 2) (.symbolic x)

def evenPath : PathFormula :=
  PathFormula.empty.assume (.atom .eq (.binary .add sum (twice "z")) (.const 0))

def oddSum : Formula := .atom .eq sum (.const 1)

def evenX : Formula := .atom .eq (.symbolic "x") (twice "w")

/-- Operators under which the three equations are independent of each other. -/
def loose : Operators where
  neg a := a
  bitNot a := a
  binary op a b := if op = .mul then b else a + b

/-- Truth values for the equations and for the symbols of the predicates. -/
def choice (even first odd second half : Bool) : Assignment where
  number x :=
    if x.name = "y" then if odd then 1 else 2
    else if x.name = "z" then (if even then 0 else 1) - if odd then 1 else 2
    else if x.name = "w" then if half then 0 else 1
    else 0
  truth x := if x = "PRED0" then first else second

theorem reachable_evenPath (o : FormulaOptions) :
    reachable o (.top .empty) evenPath = evenPath.formula := by
  have plain : evenPath.formula.bitwiseAxioms = .bool true := by cbv
  rw [reachable, strengthened, if_neg fun asked => asked.2 plain]
  cbv

theorem holds_choice : ∀ even first odd second half : Bool,
    evenPath.formula.holds loose (choice even first odd second half) = even ∧
    (.prop "PRED0" : Formula).holds loose (choice even first odd second half) = first ∧
    (oddSum.instantiate .empty).holds loose (choice even first odd second half) = odd ∧
    (.prop "PRED1" : Formula).holds loose (choice even first odd second half) = second ∧
    (evenX.instantiate .empty).holds loose (choice even first odd second half) = half := by
  decide

theorem free_choice : Skeleton.Free loose #[evenPath.formula, .prop "PRED0", oddSum.instantiate .empty,
    .prop "PRED1", evenX.instantiate .empty] := by
  refine fun v => ⟨choice (v 1) (v 2) (v 3) (v 4) (v 5), fun i g here => ?_⟩
  obtain ⟨even, first, odd, second, half⟩ := holds_choice (v 1) (v 2) (v 3) (v 4) (v 5)
  obtain _ | _ | _ | _ | _ | i := i <;> cases here <;> assumption

/-! #### Equations -/

def evenForm : LinearForm := ⟨[(0, 1), (1, 3), (2, 2)], 0⟩

def oddForm : LinearForm := ⟨[(0, 1), (1, 3)], -1⟩

def halfForm : LinearForm := ⟨[(0, 1), (3, -2)], 0⟩

/-- Solved for `x`, the equation of the sum leaves `1 + 2 * z = 0`. -/
theorem equations_odd : Elimination.equations {} [oddForm, evenForm] [] = pure false := by
  rw [Elimination.equations_cons]
  cbv

/-- Without `x` no coefficient is 1 or -1, so the equations become inequalities. -/
theorem equations_solved {eqs eqs' les les' : List LinearForm}
    (solvedEqs : eqs.mapM (LinearForm.substitute? 0 ⟨[(3, 2)], 0⟩) = some eqs')
    (solvedLes : les.mapM (LinearForm.substitute? 0 ⟨[(3, 2)], 0⟩) = some les') :
    Elimination.equations {} (halfForm :: eqs) les = Elimination.equations {} eqs' les' :=
  Elimination.equations_solve (g := 1) (x := 0) (c := 1) rfl (by decide) (by decide) rfl
    (by cbv) solvedEqs solvedLes

theorem equations_half : Elimination.equations {} [halfForm, evenForm] [] = pure true := by
  have rational : Elimination.equations {} [⟨[(1, 3), (2, 2), (3, 2)], 0⟩] [] = pure true := by
    rw [Elimination.equations_cons]
    cbv
  exact (equations_solved (by cbv) (by cbv)).trans rational

theorem equations_both : Elimination.equations {} [halfForm, oddForm, evenForm] [] = pure true := by
  have rational : Elimination.equations {}
      [⟨[(1, 3), (3, 2)], -1⟩, ⟨[(1, 3), (2, 2), (3, 2)], 0⟩] [] = pure true := by
    rw [Elimination.equations_cons]
    cbv
  exact (equations_solved (by cbv) (by cbv)).trans rational

theorem split_odd : (Elimination.split {} [halfForm, evenForm] [oddForm] []).run 0 =
    pure (true, 1) := by
  have upper : (oddForm.scale? (-1)).bind (·.addConst? 1) = some ⟨[(0, -1), (1, -3)], 2⟩ := by cbv
  have rational : Elimination.equations {} [⟨[(1, 3), (2, 2), (3, 2)], 0⟩] [⟨[(1, 3), (3, 2)], 0⟩] =
      pure true := by
    rw [Elimination.equations_cons]
    cbv
  have below : Elimination.equations {} [halfForm, evenForm] [⟨[(0, 1), (1, 3)], 0⟩] = pure true :=
    (equations_solved (by cbv) (by cbv)).trans rational
  refine Elimination.split_below equations_half (by decide) rfl upper ?_
  rw [Elimination.split_nil]
  exact congrArg (· >>= _) below

/-! #### The Cartesian queries -/

theorem forces_even : Solver.Forces loose (.conj [evenPath.formula]) [(evenPath.formula, true)] :=
  Solver.forces_conj rfl (by cbv)
    (Skeleton.free_singleton (fun even => choice even true true true true) fun even =>
      (holds_choice even true true true true).1)

theorem answered_even : Answered {} (.conj [evenPath.formula]) := by
  refine forces_even.answered (b := true) (by cbv) fun k path literals => ?_
  unfold Skeleton.Decides Skeleton.consistent?
  rw [literals]
  cbv

theorem forces_odd (odd : Bool) : Solver.Forces loose
    (.conj [evenPath.formula, Skeleton.ofLiteral (oddSum.instantiate .empty, odd)])
    [(evenPath.formula, true), (oddSum.instantiate .empty, odd)] :=
  Solver.forces_conj rfl (by cases odd <;> cbv)
    (Skeleton.free_pair (fun even odd => choice even true odd true true) fun even odd =>
      ⟨(holds_choice even true odd true true).1, (holds_choice even true odd true true).2.2.1⟩)

theorem forces_half (half : Bool) : Solver.Forces loose
    (.conj [evenPath.formula, Skeleton.ofLiteral (evenX.instantiate .empty, half)])
    [(evenPath.formula, true), (evenX.instantiate .empty, half)] :=
  Solver.forces_conj rfl (by cases half <;> cbv)
    (Skeleton.free_pair (fun even half => choice even true true true half) fun even half =>
      ⟨(holds_choice even true true true half).1, (holds_choice even true true true half).2.2.2.2⟩)

theorem refuted_odd : Refuted {} (.conj [evenPath.formula, oddSum.instantiate .empty]) := by
  refine (forces_odd true).refuted (by cbv) fun k path literals => ?_
  have constraints : (Constraint.ofLiterals (k.literals path)).run [] =
      .ok ([evenForm, oddForm].map .zero, [.indexed "x" 1, .indexed "y" 1, .indexed "z" 1]) := by
    rw [literals]
    cbv
  exact Skeleton.decides_of_equations constraints equations_odd

theorem asked_odd : Asked {} evenPath.formula (oddSum.instantiate .empty) where
  first := by
    refine (forces_odd false).answered (b := true) (by cbv) fun k path literals => ?_
    unfold Skeleton.Decides Skeleton.consistent?
    rw [literals]
    cbv
  second _ := refuted_odd.answered

theorem asked_half : Asked {} evenPath.formula (evenX.instantiate .empty) where
  first := by
    refine (forces_half false).answered (b := true) (by cbv) fun k path literals => ?_
    unfold Skeleton.Decides Skeleton.consistent?
    rw [literals]
    cbv
  second _ := by
    refine (forces_half true).answered (b := true) (by cbv) fun k path literals => ?_
    have constraints : (Constraint.ofLiterals (k.literals path)).run [] =
        .ok ([evenForm, halfForm].map .zero,
          [.indexed "x" 1, .indexed "y" 1, .indexed "z" 1, .indexed "w" 1]) := by
      rw [literals]
      cbv
    exact Skeleton.decides_of_equations constraints equations_half

theorem judged_odd : Judged {} evenPath.formula (oddSum.instantiate .empty) .fails := by
  have words : evenPath.formula.Within .words := by cbv
  have wordsOdd : (oddSum.instantiate .empty).Within .words := by cbv
  refine ⟨?_, refuted_odd⟩
  apply not_refuted (m := ⟨fun _ => 0, fun _ => false⟩) Operators.integral_standard
    (Formula.within_pair words (Formula.within_negate wordsOdd))
  decide

/-! #### The Boolean query -/

def bothQuery : Formula :=
  .nary .and [evenPath.formula, .iff (.prop "PRED0") (oddSum.instantiate .empty),
    .iff (.prop "PRED1") (evenX.instantiate .empty)]

theorem booleanQuery_eq {p q : Predicate} (first : p.id = 0) (second : q.id = 1)
    (atomP : p.atom = oddSum) (atomQ : q.atom = evenX) :
    .conj [booleanQuery evenPath.formula .empty [p, q]] = bothQuery := by
  obtain ⟨_, _, _⟩ := p
  obtain ⟨_, _, _⟩ := q
  subst first second atomP atomQ
  cbv

theorem bothQuery_holds (ops : Operators) (m : Assignment) : bothQuery.holds ops m = true ↔
    evenPath.formula.holds ops m = true ∧
      (.prop "PRED0" : Formula).holds ops m = (oddSum.instantiate .empty).holds ops m ∧
      (.prop "PRED1" : Formula).holds ops m = (evenX.instantiate .empty).holds ops m := by
  simp [bothQuery, Formula.holds, Formula.holdsNary, Connective.combine, Connective.unit]

variable {k : Skeleton} {path : List Int}

def bothLiterals (odd half : Bool) : List (Formula × Bool) :=
  [(evenPath.formula, true), (.prop "PRED0", odd), (oddSum.instantiate .empty, odd),
    (.prop "PRED1", half), (evenX.instantiate .empty, half)]

/-- No atom has another value where all others keep theirs. -/
theorem literals_bothQuery (made : Skeleton.ofFormula bothQuery = .ok k)
    (mem : path ∈ k.diagram.paths k.root) :
    ∃ odd half, k.literals path = bothLiterals odd half := by
  have encodes := Skeleton.ofFormula_encodes made
  have atoms : k.atoms = #[evenPath.formula, .prop "PRED0", oddSum.instantiate .empty,
      .prop "PRED1", evenX.instantiate .empty] := encodes.atoms.trans (by cbv)
  have rigid (m n : Assignment) (holds : bothQuery.holds loose m = true)
      (model : bothQuery.holds loose n = true) : ∀ a ∈ k.atoms,
      (∀ b ∈ k.atoms, b ≠ a → b.holds loose n = b.holds loose m) →
        a.holds loose n = a.holds loose m := by
    intro a inside same
    obtain ⟨even, first, second⟩ := (bothQuery_holds _ _).mp holds
    obtain ⟨even', first', second'⟩ := (bothQuery_holds _ _).mp model
    simp only [atoms, List.mem_toArray, List.mem_cons, List.not_mem_nil, or_false] at inside same
    rcases inside with rfl | rfl | rfl | rfl | rfl
    · rw [even, even']
    · rw [first, first', same _ (by simp) (by decide)]
    · rw [← first, ← first', same _ (by simp) (by decide)]
    · rw [second, second', same _ (by simp) (by decide)]
    · rw [← second, ← second', same _ (by simp) (by decide)]
  obtain ⟨m, holds, literals⟩ := encodes.literals_of_rigid (atoms ▸ free_choice) rigid mem
  obtain ⟨even, first, second⟩ := (bothQuery_holds _ _).mp holds
  refine ⟨(oddSum.instantiate .empty).holds loose m, (evenX.instantiate .empty).holds loose m, ?_⟩
  rw [literals, atoms]
  simp [bothLiterals, even, first, second]

/-- An odd sum is refuted only where `x` is not even as well. -/
theorem decides_both (odd half : Bool) (literals : k.literals path = bothLiterals odd half) :
    k.Decides {} path (!odd || half) := by
  cases odd with
  | true =>
    cases half with
    | true =>
      have constraints : (Constraint.ofLiterals (k.literals path)).run [] =
          .ok ([evenForm, oddForm, halfForm].map .zero,
            [.indexed "x" 1, .indexed "y" 1, .indexed "z" 1, .indexed "w" 1]) := by
        rw [literals]
        cbv
      exact Skeleton.decides_of_equations constraints equations_both
    | false =>
      have constraints : (Constraint.ofLiterals (k.literals path)).run [] =
          .ok ([.zero evenForm, .zero oddForm, .nonzero halfForm],
            [.indexed "x" 1, .indexed "y" 1, .indexed "z" 1, .indexed "w" 1]) := by
        rw [literals]
        cbv
      exact Skeleton.decides_of_split constraints (Elimination.split_of_refuted equations_odd)
  | false =>
    cases half with
    | true =>
      have constraints : (Constraint.ofLiterals (k.literals path)).run [] =
          .ok ([.zero evenForm, .nonzero oddForm, .zero halfForm],
            [.indexed "x" 1, .indexed "y" 1, .indexed "z" 1, .indexed "w" 1]) := by
        rw [literals]
        cbv
      exact Skeleton.decides_of_split constraints split_odd
    | false =>
      unfold Skeleton.Decides Skeleton.consistent?
      rw [literals]
      cbv

theorem answered_both : Answered {} bothQuery := by
  obtain ⟨k, made⟩ :=
    Skeleton.exists_ofFormula (show Skeleton.room bothQuery + 2 < 0x7fffffff by cbv)
  refine ⟨k, made, fun path mem => ?_⟩
  obtain ⟨odd, half, literals⟩ := literals_bothQuery made mem
  exact ⟨_, decides_both odd half literals⟩

/-! #### The two abstractions -/

variable {p q : Predicate}

/-- The predicates that say that the sum is odd and that `x` is even. -/
structure Are (p q : Predicate) : Prop where
  first : p.id = 0
  second : q.id = 1
  odd : p.atom = oddSum
  half : q.atom = evenX

theorem Are.selected (are : Are p q) : Abstractor.selected [p, q] = [p, q] := by
  unfold Abstractor.selected Predicate.inOrder
  rw [List.mergeSort_of_pairwise (by simp [are.first, are.second])]
  simp [withoutRepeats, are.first, are.second]

theorem Are.relevant (are : Are p q) : Abstractor.relevant [p, q] = [p, q] := by
  simp [Abstractor.relevant, are.odd, are.half, oddSum, evenX]

theorem Are.answered (are : Are p q) {a : Abstractor} (limits : a.solver.limits = {}) :
    a.QueriesAnswered (reachable a.settings.formula (.top .empty) evenPath) evenPath.ssa
      (Abstractor.selected [p, q]) := by
  unfold QueriesAnswered
  rw [are.selected, reachable_evenPath, limits]
  split
  · refine ⟨answered_even, fun _ => ?_⟩
    rw [List.forall_mem_cons, List.forall_mem_singleton, are.odd, are.half]
    exact ⟨asked_odd, asked_half⟩
  · rw [BooleanAsked, are.relevant, if_neg (List.cons_ne_nil p _), show evenPath.ssa = .empty from rfl,
      booleanQuery_eq are.first are.second are.odd are.half]
    exact answered_both

theorem Are.important (are : Are p q) : (Abstractor.relevant [p, q]).map (fun p => (p.symbol, p.marker)) =
    [(.prop "PRED0", p.marker), (.prop "PRED1", q.marker)] := by
  have symbolP : p.symbol = .prop "PRED0" := by
    unfold Predicate.symbol Predicate.name
    rw [are.first]
    cbv
  have symbolQ : q.symbol = .prop "PRED1" := by
    unfold Predicate.symbol Predicate.name
    rw [are.second]
    cbv
  rw [are.relevant, List.map_cons, List.map_singleton, symbolP, symbolQ]

/-- The path with all literals positive is found consistent, as the solver may ignore integrality. -/
theorem Are.booleanHolds (are : Are p q) {d : Diagram}
    (values : ∀ t ∈ [p, q], d.eval v t.marker.ref = true) :
    BooleanHolds {} d evenPath.formula .empty [p, q] v := by
  rw [BooleanHolds, are.important, are.relevant, if_neg (List.cons_ne_nil p _),
    booleanQuery_eq are.first are.second are.odd are.half]
  obtain ⟨k, made⟩ :=
    Skeleton.exists_ofFormula (show Skeleton.room bothQuery + 2 < 0x7fffffff by cbv)
  have encodes := Skeleton.ofFormula_encodes made
  have all : bothQuery.holds loose (choice true true true true true) = true := by decide
  obtain ⟨path, mem, model⟩ := encodes.exists_path all
  obtain ⟨odd, half, literals⟩ := literals_bothQuery made mem
  unfold Skeleton.Holds at model
  rw [literals] at model
  obtain rfl : true = odd := model (.prop "PRED0", odd) (by simp [bothLiterals])
  obtain rfl : true = half := model (.prop "PRED1", half) (by simp [bothLiterals])
  refine ⟨k, made, path, mem, decides_both true true literals, ?_⟩
  rw [Prover.sees_iff encodes mem (by simp), literals]
  obtain ⟨valueP, valueQ⟩ : d.eval v p.marker.ref = true ∧ d.eval v q.marker.ref = true :=
    ⟨values p (by simp), values q (by simp)⟩
  simp [bothLiterals, valueP, valueQ]

/-- The Boolean abstraction has a valuation with both predicates, but none of the Cartesian abstraction
has the first one. -/
theorem odd_in_boolean_only : ∃ (o : AnalysisOptions) (r c : Abstraction) (reg : Registry)
    (p q : Predicate) (v : Valuation), p.atom = oddSum ∧ q.atom = evenX ∧
      Afresh false o (.top .empty) evenPath [p, q] r reg ∧
      Afresh true o (.top .empty) evenPath [p, q] c reg ∧
      reg.diagram.eval v r.region.ref = true ∧ reg.diagram.eval v c.region.ref = false := by
  obtain ⟨d, empty⟩ := Registry.exists_empty
  obtain ⟨p, q, _, before, -, -, valid, both, first, second, atomP, atomQ, few⟩ :=
    Registry.exists_two_predicates empty oddSum evenX (by decide)
  have are : Are p q := ⟨first, second, atomP, atomQ⟩
  have member : ∀ t ∈ [p, q], t ∈ before.predicates := by simp [both]
  let o : AnalysisOptions := ⟨{}, {}, {}, {}⟩
  obtain ⟨r, c, reg, boolean, cartesian⟩ := exists_afresh (o := o) valid member
    (Nat.le_trans valid.vars_le (by omega)) fun _ => are.answered rfl
  obtain ⟨valid, known⟩ := boolean.known
  have values : ∀ t ∈ [p, q], reg.diagram.eval (fun _ => true) t.marker.ref = true :=
    fun t mem => (valid.marks t (known t mem)).eval _
  refine ⟨o, r, c, reg, p, q, fun _ => true, atomP, atomQ, boolean, cartesian, ?_, ?_⟩
  · rw [boolean.boolean_iff (by simp), reachable_evenPath, are.selected]
    exact are.booleanHolds values
  -- Asked about the first predicate alone, the solver finds that it fails.
  · rw [Bool.eq_false_iff, ne_eq, cartesian.cartesian_iff (by simp), reachable_evenPath, are.selected]
    rintro ⟨-, allows⟩
    have judged := judged_odd
    rw [← atomP] at judged
    have value := allows p (by simp) .fails judged
    rw [Verdict.Allows, Verdict.Leaves, values p (by simp)] at value
    cases value

end Parity

end Abstractor

end ProgramAnalysis
