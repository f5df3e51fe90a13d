import ProgramAnalysis.Proofs.Abstraction.Compute
import ProgramAnalysis.Proofs.Predicate.Translation

/-! When an abstraction is computed. The solver has to answer what it is asked, the region needs nodes, and
it needs a formula. A formula there is, because the region speaks of predicates only, and nodes there are
as long as the regions have few variables. -/
namespace ProgramAnalysis

open Attempt (Ensures)
open Diagram (OnlyOn)
open Solver (Answered Refuted)

namespace Abstractor

variable {a b : Abstractor} {d : Diagram} {f g : Formula} {s : SsaMap} {p : Predicate}
  {ps : List Predicate} {r : Region} {base : Abstraction} {path : PathFormula} {limits : SolverLimits}

theorem ask_returns {p : Prover} (answered : Answered a.solver.limits p.conjunction) :
    Ensures (ask p.isUnsat) a (fun _ => False) (fun _ _ => False) fun answer b =>
      (answer = true ↔ Refuted a.solver.limits p.conjunction) ∧
        ∃ t : Solver, t.limits = a.solver.limits ∧ b = a.withSolver t := by
  rw [ask_ensures]
  exact (Prover.isUnsat_returns answered).mono fun answer t ⟨same, decides⟩ =>
    ⟨decides, t, same, rfl⟩

/-! ### Cartesian -/

/-- The solver answers what the verdict on `g` under `f` takes. -/
structure Asked (limits : SolverLimits) (f g : Formula) : Prop where
  first : Answered limits (.conj [f, g.negate])
  second : ¬ Refuted limits (.conj [f, g.negate]) → Answered limits (.conj [f, g])

theorem verdictOf_returns (asked : Asked a.solver.limits f (p.atom.instantiate s)) :
    Ensures (verdictOf ⟨[f]⟩ s p) a (fun _ => False) (fun _ _ => False)
      fun _ b => b.registry = a.registry ∧ b.solver.limits = a.solver.limits := by
  unfold verdictOf
  rw [Attempt.ensures_bind]
  refine (ask_returns asked.first).mono ?_
  rintro answer _ ⟨decides, t, same, rfl⟩
  cases answer with
  | true => exact ⟨rfl, same⟩
  | false =>
    have open₁ : ¬ Refuted a.solver.limits (.conj [f, (p.atom.instantiate s).negate]) := fun h =>
      Bool.false_ne_true (decides.mpr h)
    have answered : Answered t.limits (.conj [f, p.atom.instantiate s]) := by
      rw [same]
      exact asked.second open₁
    rw [if_neg Bool.false_ne_true, Attempt.ensures_bind]
    refine (ask_returns answered).mono ?_
    rintro answer _ ⟨-, u, same', rfl⟩
    cases answer <;> exact ⟨rfl, same'.trans same⟩

theorem verdict_returns (asked : Asked a.solver.limits f (p.atom.instantiate s)) :
    Ensures (verdict f ⟨[f]⟩ s p) a (fun _ => False) (fun _ _ => False)
      fun _ b => b.registry = a.registry ∧ b.solver.limits = a.solver.limits := by
  have judges := verdictOf_returns asked
  unfold verdict
  rw [Attempt.ensures_bind, Attempt.ensures_get, Attempt.ensures_bind, Attempt.ensures_get]
  cases a.settings.abstraction.useCache with
  | false =>
    simp only [Bool.false_eq_true, if_false]
    rw [Attempt.ensures_bind]
    exact judges
  | true =>
    simp only [if_true]
    cases a.memory.verdicts.lookup (f, p.id) with
    | some w => exact ⟨rfl, rfl⟩
    | none =>
      simp only
      rw [Attempt.ensures_bind]
      refine judges.mono fun w b same => ?_
      rw [Attempt.ensures_bind, recordIn_ensures, Attempt.ensures_pure]
      exact same

theorem warnOfDisjunctions_returns :
    Ensures (warnOfDisjunctions f) a (fun _ => False) (fun _ _ => False)
      fun _ b => b.registry = a.registry ∧ b.solver = a.solver := by
  unfold warnOfDisjunctions
  rw [Attempt.ensures_bind, Attempt.ensures_get]
  split
  · exact ⟨rfl, rfl⟩
  · exact ⟨rfl, rfl⟩

theorem narrow_returns (valid : d.Valid) (few : d.vars ≤ 4) (hasR : d.Has r.ref)
    (has : d.Has p.marker.ref) (w : Verdict) :
    Checked.Ensures (narrow r p w) d (fun _ => False) fun r' e => d.Grows e ∧ e.Has r'.ref := by
  have meets {x : Region} (hasX : d.Has x.ref) :
      Checked.Ensures (r.and x) d (fun _ => False) fun r' e => d.Grows e ∧ e.Has r'.ref := by
    have only (g : Ref) := valid.onlyOn (Nat.le_refl _) g
    apply (Region.and_ensures (.refl valid) hasR hasX (fun _ => rfl) fun _ => id).imp
    · exact fun _ _ ⟨gives, _⟩ => ⟨gives.grows, gives.has⟩
    · exact fun _ => valid.not_exhausts few fun k of => OnlyOn.cofactor
        (fun v w same => congrArg₂ and (only r.ref v w same) (only x.ref v w same)) of
  cases w with
  | holds => exact meets has
  | fails => exact meets (Region.has_not has)
  | unknown => exact ⟨.refl valid, hasR⟩

theorem cartesian_returns (valid : a.registry.Valid) (known : ∀ p ∈ ps, p ∈ a.registry.predicates)
    (few : a.registry.diagram.vars ≤ 4) (whole : Answered a.solver.limits (.conj [f]))
    (asked : ¬ Refuted a.solver.limits (.conj [f]) →
      ∀ p ∈ ps, Asked a.solver.limits f (p.atom.instantiate s)) :
    Ensures (cartesian f s ps) a (fun _ => False) (fun _ _ => False) fun _ _ => True := by
  unfold cartesian Prover.start
  rw [Attempt.ensures_bind, ask_ensures, Solver.count_ensures, Attempt.ensures_pure,
    Attempt.ensures_bind]
  refine (ask_returns (by exact whole)).mono ?_
  rintro answer _ ⟨decides, t, same, rfl⟩
  cases answer with
  | true => exact trivial
  | false =>
    have asked := asked fun refuted => Bool.false_ne_true (decides.mpr refuted)
    rw [if_neg Bool.false_ne_true, Attempt.ensures_bind]
    refine warnOfDisjunctions_returns.mono ?_
    rintro _ b ⟨registry, solver⟩
    have limits : b.solver.limits = a.solver.limits := (congrArg Solver.limits solver).trans same
    have start : a.registry.diagram.Grows b.registry.diagram := by
      rw [registry]
      exact .refl valid.diagram
    refine (Attempt.ensures_foldlM (fun rest r b => (∀ p ∈ rest, p ∈ ps) ∧
      b.solver.limits = a.solver.limits ∧ a.registry.diagram.Grows b.registry.diagram ∧
        b.registry.diagram.Has r.ref) ⟨fun _ => id, limits, start, Diagram.has_one _⟩ ?_).mono
      fun _ _ _ => trivial
    rintro p rest r b ⟨inside, limits, grown, has⟩
    obtain ⟨mem, inside⟩ := List.forall_mem_cons.mp inside
    rw [Attempt.ensures_bind]
    refine (verdict_returns (by rw [limits]; exact asked p mem)).mono ?_
    rintro w c ⟨registry, limits'⟩
    rw [regionsOnly_ensures, registry]
    have marker := grown.has (valid.marks p (known p mem)).has
    refine (narrow_returns grown.valid (grown.vars.trans_le few) has marker w).mono ?_
    rintro r' e ⟨more, has'⟩
    exact ⟨inside, limits'.trans limits, grown.trans more, has'⟩

/-! ### Boolean -/

/-- The solver answers what the Boolean abstraction takes. -/
def BooleanAsked (limits : SolverLimits) (f : Formula) (s : SsaMap) (ps : List Predicate) : Prop :=
  Answered limits (if relevant ps = [] then booleanQuery f s ps else .conj [booleanQuery f s ps])

theorem boolean_returns (valid : a.registry.Valid) (known : ∀ p ∈ ps, p ∈ a.registry.predicates)
    (few : a.registry.diagram.vars ≤ 4) (answered : BooleanAsked a.solver.limits f s ps) :
    Ensures (boolean f s ps) a (fun _ => False) (fun _ _ => False) fun _ _ => True := by
  unfold BooleanAsked booleanQuery at answered
  unfold boolean
  by_cases none : relevant ps = []
  · rw [if_pos none] at answered
    simp only [none, List.isEmpty_nil, if_true] at answered ⊢
    rw [Attempt.ensures_bind, count_ensures, Attempt.ensures_bind, ask_ensures]
    exact (Solver.isUnsat_returns (by exact answered)).mono fun _ _ _ => trivial
  · rw [if_neg none] at answered
    simp only [List.isEmpty_iff, none, if_false]
    unfold Prover.start
    rw [Attempt.ensures_bind, ask_ensures, Solver.count_ensures, Attempt.ensures_pure,
      Attempt.ensures_bind, solve_ensures]
    have important : ∀ x ∈ (relevant ps).map fun p => (p.symbol, p.marker),
        a.registry.diagram.Has x.2.ref := by
      intro x mem
      obtain ⟨p, inside, rfl⟩ := List.mem_map.mp mem
      exact (valid.marks p (known p (List.mem_of_mem_filter inside))).has
    refine ((Prover.allSat_returns _ valid.diagram important answered).weaken ?_).mono ?_
    · rintro v ⟨k, -, exhausts⟩
      exact valid.diagram.not_exhausts few (fun g of => of.onlyOn fun x _ =>
        valid.diagram.onlyOn (Nat.le_refl _) x.2.ref) exhausts
    · intro answer t _
      rw [Attempt.ensures_bind, count_ensures]
      trivial

/-! ### Both -/

/-- The solver answers what an abstraction takes. -/
def QueriesAnswered (a : Abstractor) (f : Formula) (s : SsaMap) (ps : List Predicate) : Prop :=
  if a.settings.abstraction.cartesian then Answered a.solver.limits (.conj [f]) ∧
    (¬ Refuted a.solver.limits (.conj [f]) → ∀ p ∈ ps, Asked a.solver.limits f (p.atom.instantiate s))
  else BooleanAsked a.solver.limits f s ps

theorem QueriesAnswered.of_same (answered : a.QueriesAnswered f s ps)
    (cartesian : b.settings.abstraction.cartesian = a.settings.abstraction.cartesian)
    (limits : b.solver.limits = a.solver.limits) : b.QueriesAnswered f s ps := by
  unfold QueriesAnswered
  rwa [cartesian, limits]

theorem regionOf_returns (valid : a.registry.Valid) (known : ∀ p ∈ ps, p ∈ a.registry.predicates)
    (few : a.registry.diagram.vars ≤ 4) (answered : a.QueriesAnswered f s ps) :
    Ensures (regionOf f s ps) a (fun _ => False) (fun _ _ => False) fun _ _ => True := by
  unfold QueriesAnswered at answered
  unfold regionOf
  rw [Attempt.ensures_bind, Attempt.ensures_get]
  split
  · rename_i cartesian
    rw [if_pos cartesian] at answered
    exact cartesian_returns valid known few answered.1 answered.2
  · rename_i boolean
    rw [if_neg boolean] at answered
    exact boolean_returns valid known few answered

/-- A region that says how predicates are valued has a formula. -/
theorem exists_toFormula_of_reads (valid : a.registry.Valid)
    (known : ∀ p ∈ ps, p ∈ a.registry.predicates) (grown : a.Grows b)
    (reads : Region.Reads a.registry.diagram b.registry.diagram r
      (b.Holds a.registry.diagram f s ps)) : ∃ g, b.registry.toFormula r = .ok g := by
  apply Registry.exists_toFormula
  intro x tests
  by_contra! other
  obtain ⟨v, differs⟩ := tests.depends reads.grows.valid.ordered reads.has
  apply differs
  have same (c : Bool) (p : Predicate) (mem : p ∈ ps) :
      a.registry.diagram.eval (Function.update v x c) p.marker.ref =
        a.registry.diagram.eval v p.marker.ref := by
    have marks := valid.marks p (known p mem)
    have apart : a.registry.diagram.var p.marker.ref ≠ x := by
      rw [← reads.grows.nodes.var_eq marks.has]
      exact other p (grown.registry.predicates ▸ known p mem)
    rw [marks.eval, marks.eval, Function.update_of_ne apart]
  rw [Bool.eq_iff_iff, reads.eval, reads.eval]
  constructor
  · exact fun holds => holds.of_agree fun p mem => (same _ p mem).trans (same _ p mem).symm
  · exact fun holds => holds.of_agree fun p mem => (same _ p mem).trans (same _ p mem).symm

/-! ### Built -/

theorem selected_singleton (p : Predicate) : selected [p] = [p] := by
  unfold selected Predicate.inOrder
  rw [List.mergeSort_singleton]
  rfl

theorem reachable_empty (o : FormulaOptions) :
    reachable o (.top .empty) .empty = .bool true := by
  have strong : strengthened o (.bool true) = .bool true := by
    unfold strengthened
    rw [if_neg]
    rintro ⟨-, h⟩
    exact h rfl
  unfold reachable
  rw [show PathFormula.empty.formula = .bool true from rfl, strong]
  rfl

theorem compute_returns {number : Nat} {ids : List Nat} (valid : a.registry.Valid)
    (known : ∀ p ∈ ps, p ∈ a.registry.predicates) (few : a.registry.diagram.vars ≤ 4)
    (answered : a.QueriesAnswered f path.ssa ps) :
    Ensures (compute number ⟨f, ids⟩ path ps) a (fun _ => False) (fun _ _ => False)
      fun _ _ => True := by
  unfold compute ofRegion
  rw [Attempt.ensures_bind]
  apply ((regionOf_returns valid known few answered).and (regionOf_ensures valid known)).imp
  · rintro r b ⟨-, learns, -, -, reads⟩
    obtain ⟨g, made⟩ := exists_toFormula_of_reads valid known learns.toGrows reads
    simp only [Attempt.ensures_bind, Attempt.ensures_get, Attempt.ensures_ofOutcome_lift,
      Attempt.ensures_pure]
    refine ⟨fun _ _ => trivial, fun v failed => ?_⟩
    cases made.symm.trans failed
  · exact fun _ _ failed => failed.1

/-- An abstraction is trivial, or it is remembered, or the region is computed. -/
theorem build_returns (valid : a.registry.Valid) (known : ∀ p ∈ ps, p ∈ a.registry.predicates)
    (few : a.registry.diagram.vars ≤ 4) (answered : a.QueriesAnswered
      (reachable a.settings.formula base path) path.ssa (selected ps)) :
    Ensures (build base path ps) a (fun _ => False) (fun _ _ => False) fun _ _ => True := by
  have chosen : ∀ p ∈ selected ps, p ∈ a.registry.predicates := fun p mem =>
    known p (mem_of_mem_selected mem)
  unfold build
  rw [Attempt.ensures_bind, count_ensures, Attempt.ensures_bind, Attempt.ensures_get]
  split
  · trivial
  simp only [Attempt.ensures_bind, Attempt.ensures_get]
  split
  · trivial
  · exact compute_returns valid chosen few answered

/-! ### Predicates that are never true -/

theorem selected_never (never : p.atom = .bool false) : relevant (selected [p]) = [] := by
  simp [selected_singleton, relevant, never]

theorem answered_never (never : p.atom = .bool false) : a.QueriesAnswered
    (reachable a.settings.formula (.top .empty) .empty) PathFormula.empty.ssa (selected [p]) := by
  have none : relevant [p] = [] := selected_singleton p ▸ selected_never never
  rw [reachable_empty, selected_singleton]
  unfold QueriesAnswered
  split
  · refine ⟨Solver.answered_bool _ true, fun _ => List.forall_mem_singleton.mpr ?_⟩
    rw [never]
    exact ⟨Solver.answered_bool _ true, fun _ => Solver.answered_bool _ false⟩
  · rw [BooleanAsked, if_pos none, booleanQuery, none]
    exact Solver.answered_bool _ true

end Abstractor

end ProgramAnalysis
