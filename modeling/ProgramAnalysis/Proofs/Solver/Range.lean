import Mathlib
import ProgramAnalysis.Proofs.Linear.Range
import ProgramAnalysis.Proofs.Solver.AllSat

/-! Where the solver has no answer. A query returns or reports a failure, unless a diagram needs more nodes
than there are numbers for or the reasoning about the literals of a path comes to the smallest number. -/
namespace ProgramAnalysis

open Attempt (Ensures)

variable {limits : SolverLimits} {f : Formula} {k : Skeleton} {path : List Int} {v : Violation}

/-- The literals of a path of the skeleton lead to a constraint for which the reasoning has no guard. -/
def Formula.LeavesRange (f : Formula) : Prop :=
  ∃ k, Skeleton.ofFormula f = .ok k ∧ ∃ path ∈ k.diagram.paths k.root, ∃ cs known,
    (Constraint.ofLiterals (k.literals path)).run [] = .ok (cs, known) ∧
      ∃ c, Constraint.Arises cs c ∧ c.Unguarded

theorem Skeleton.Breaks.exists_arises (breaks : k.Breaks limits path v) :
    v = .outOfRange ∧ ∃ cs known, (Constraint.ofLiterals (k.literals path)).run [] = .ok (cs, known) ∧
      ∃ c, Constraint.Arises cs c ∧ c.Unguarded := by
  unfold Breaks consistent? at breaks
  split at breaks
  · cases breaks
  · rename_i cs known linearized
    obtain ⟨range, unguarded⟩ := (Constraint.areConsistent_ensures limits cs).1 v breaks
    exact ⟨range, cs, known, linearized, unguarded⟩

/-- A computation returns or reports a failure, unless nodes are too many, where `full` says for what, or
the reasoning about the formula leaves the range. -/
def Responds {ε σ α : Type} (f : Formula) (full : Violation → Prop) (act : Attempt ε σ α) (s : σ) : Prop :=
  (∃ r t, act.run s = .ok (r, t)) ∨ act.run s = .error .nodesExhausted ∧ full .nodesExhausted ∨
    act.run s = .error .outOfRange ∧ f.LeavesRange

theorem Responds.of_ensures {ε σ α : Type} {act : Attempt ε σ α} {s : σ} {full bad : Violation → Prop}
    {fail : ε → σ → Prop} {good : α → σ → Prop}
    (ensured : Ensures act s (fun v => bad v ∨ Solver.Interrupted limits f v) fail good)
    (exhausts : ∀ v, bad v → v = .nodesExhausted ∧ full v)
    (skeleton : ∀ v, Skeleton.Exhausts f v → full v) : Responds f full act s := by
  cases run : act.run s with
  | ok r => exact .inl ⟨r.1, r.2, run⟩
  | error v =>
    rcases ensured.of_violation run with here | broken | ⟨k, made, path, mem, breaks⟩
    · obtain ⟨rfl, here⟩ := exhausts v here
      exact .inr (.inl ⟨run, here⟩)
    · have here := Skeleton.exhausts_of_ofFormula broken
      obtain rfl := here.eq
      exact .inr (.inl ⟨run, skeleton _ here⟩)
    · obtain ⟨rfl, arises⟩ := breaks.exists_arises
      exact .inr (.inr ⟨run, k, made, path, mem, arises⟩)

theorem Responds.of_decides {act : SolverM Bool} {s : Solver} {fail : SolverFailure → Solver → Prop}
    {good : Bool → Solver → Prop} (ensured : Ensures act s (Solver.Interrupted limits f) fail good) :
    Responds f (Skeleton.Exhausts f) act s :=
  of_ensures (ensured.weaken fun _ => Or.inr (a := False)) (fun _ => False.elim) fun _ => id

/-- Every query of the solver, under any limits, returns or reports a failure, unless the skeleton or the
region of all models needs too many nodes or a path of the formula that is asked about leads to the
smallest number. -/
theorem Solver.queries_respond (f a b : Formula) (p : Prover) {important : List (Formula × Region)}
    (s : Solver) {d : Diagram} (valid : d.Valid) (has : ∀ x ∈ important, d.Has x.2.ref) :
    Responds f (Skeleton.Exhausts f) (isUnsat f) s ∧
      Responds (.conj [a, b.negate]) (Skeleton.Exhausts (.conj [a, b.negate])) (implies a b) s ∧
      Responds p.conjunction (Skeleton.Exhausts p.conjunction) p.isUnsat s ∧
      Responds p.conjunction
        (fun v => Skeleton.Exhausts p.conjunction v ∨ p.Exhausts s.limits d important v)
        (p.allSat important) (s, d) := by
  refine ⟨?_, ?_, ?_, ?_⟩
  · exact .of_decides (isUnsat_decides f s)
  · exact .of_decides (implies_decides a b s)
  · exact .of_decides (p.isUnsat_decides s)
  · exact .of_ensures (p.allSat_ensures valid has) (fun v ⟨k, made, full⟩ => ⟨full.1, .inr ⟨k, made, full⟩⟩)
      fun v => .inl

/-! ### A coefficient without absolute value -/

namespace Solver

variable {s : Solver}

theorem checkPath_breaks (breaks : k.Breaks s.limits path v) :
    Ensures (checkPath k path) s (· = v) (fun _ _ => False) fun _ _ => False := by
  unfold Skeleton.Breaks Skeleton.consistent? at breaks
  unfold checkPath
  rw [count_ensures, Attempt.ensures_bind, Attempt.ensures_get]
  cases linearized : (Constraint.ofLiterals (k.literals path)).run [] with
  | error e =>
    rw [linearized] at breaks
    cases breaks
  | ok r =>
    obtain ⟨cs, known⟩ := r
    rw [linearized] at breaks
    simp only at breaks ⊢
    rw [Attempt.ensures_bind, Attempt.ensures_lift, Checked.ensures_liftM, breaks]
    exact ⟨nofun, fun _ same => (Except.error.inj same).symm⟩

/-- The first path decides. -/
theorem isUnsat_breaks (made : Skeleton.ofFormula f = .ok k) (some : k.diagram.paths k.root ≠ [])
    (breaks : ∀ path ∈ k.diagram.paths k.root, k.Breaks s.limits path v) :
    (isUnsat f).run s = .error v := by
  apply Ensures.run_eq_error
  unfold isUnsat refute
  rw [count_ensures, Attempt.ensures_bind, Attempt.ensures_lift, Checked.ensures_liftM, made]
  refine ⟨?_, nofun⟩
  rintro _ ⟨⟩
  rw [Attempt.ensures_bind, Diagram.anyPath_eq]
  obtain ⟨path, rest, all⟩ := List.exists_cons_of_ne_nil some
  rw [all, List.map_cons, List.anyM, Attempt.ensures_bind]
  have first := breaks path (all ▸ List.mem_cons_self)
  exact (checkPath_breaks (s := { s with counters := _ }) (by simpa using first)).imp
    (fun _ _ => False.elim) fun _ _ => False.elim

end Solver

/-- The coefficient of `x` in `x * -2 ^ 63 * -2 ^ 63 * -2 = 0` is the smallest number. -/
def leastProduct : Formula :=
  .atom .eq (.binary .mul (.binary .mul (.binary .mul (.var ⟨"x", none⟩)
    (.const (-Machine.bound64))) (.const (-Machine.bound64))) (.const (-2))) (.const 0)

def everywhere (n : Int) : Assignment := ⟨fun _ => n, fun _ => true⟩

theorem leastProduct_holds :
    leastProduct.holds Operators.standard (everywhere 0) = true ∧
      leastProduct.holds Operators.standard (everywhere 1) = false := by decide

theorem forces_leastProduct : Solver.Forces .standard leastProduct [(leastProduct, true)] := by
  refine Solver.forces_conj rfl (by cbv) ?_
  refine Skeleton.free_singleton (fun b => everywhere (if b then 0 else 1)) fun b => ?_
  cases b with
  | true => exact leastProduct_holds.1
  | false => exact leastProduct_holds.2

theorem leastProduct_breaks (limits : SolverLimits) (literals : k.literals path = [(leastProduct, true)]) :
    k.Breaks limits path .outOfRange := by
  have constraints : (Constraint.ofLiterals (k.literals path)).run [] =
      .ok ([.zero ⟨[(0, -Machine.bound128)], 0⟩], [.var ⟨"x", none⟩]) := by
    rw [literals]
    cbv
  have divisor : LinearForm.gcd ⟨[(0, -Machine.bound128)], 0⟩ = .error .outOfRange := by decide
  unfold Skeleton.Breaks Skeleton.consistent?
  rw [constraints]
  simp only [Constraint.areConsistent, List.filterMap_cons, List.filterMap_nil, List.reverse_singleton,
    Elimination.split, Elimination.equations_cons, divisor]
  rfl

theorem leastProduct_run : (Solver.isUnsat leastProduct).run ⟨{}, {}⟩ = .error .outOfRange := by
  obtain ⟨k, made⟩ := Skeleton.exists_ofFormula (show Skeleton.room leastProduct + 2 < 0x7fffffff by cbv)
  have encodes := Skeleton.ofFormula_encodes made
  apply Solver.isUnsat_breaks made
  · obtain ⟨path, mem, -⟩ := encodes.exists_path leastProduct_holds.1
    exact List.ne_nil_of_mem mem
  · exact fun path mem => leastProduct_breaks _ (forces_leastProduct.literals made mem)

/-- The answer is lost because the product leaves the range. Asked for all models over a new diagram, the
solver does not run out of nodes either. -/
theorem Solver.queries_respond_leastProduct :
    (isUnsat leastProduct).run ⟨{}, {}⟩ = .error .outOfRange ∧ leastProduct.LeavesRange ∧
      ∃ d : Diagram, d.Valid ∧
        (Prover.allSat ⟨[leastProduct]⟩ [(.prop "p", .top)]).run (⟨{}, {}⟩, d) ≠ .error .nodesExhausted := by
  obtain ⟨d, start⟩ := Diagram.ofBits_ok (show 12 ≤ 31 by decide)
  obtain ⟨valid, nodes, vars⟩ := Diagram.ofBits_valid start
  have has : ∀ x ∈ [(Formula.prop "p", Region.top)], d.Has x.2.ref :=
    List.forall_mem_singleton.mpr d.has_one
  obtain ⟨responds, -, -, models⟩ :=
    queries_respond leastProduct leastProduct leastProduct ⟨[leastProduct]⟩ ⟨{}, {}⟩ valid has
  refine ⟨leastProduct_run, ?_, d, valid, fun exhausted => ?_⟩
  · rcases responds with ⟨r, t, answered⟩ | ⟨exhausted, -⟩ | ⟨-, leaves⟩
    · rw [leastProduct_run] at answered
      cases answered
    · rw [leastProduct_run] at exhausted
      cases exhausted
    · exact leaves
  have few : ∀ x ∈ [(Formula.prop "p", Region.top)], Diagram.OnlyOn ∅ (d.eval · x.2.ref) :=
    List.forall_mem_singleton.mpr fun v w _ => (d.eval_one v).trans (d.eval_one w).symm
  have skeleton : Skeleton.room (Prover.conjunction ⟨[leastProduct]⟩) = 6 := by cbv
  have region : Prover.room ⟨[leastProduct]⟩ 0 = 4 := by cbv
  rcases models with ⟨r, t, answered⟩ | ⟨-, exhausts | exhausts⟩ | ⟨broken, -⟩
  · rw [exhausted] at answered
    cases answered
  · exact Skeleton.not_exhausts (by omega) _ exhausts
  · obtain ⟨-, full⟩ := exhausts.short few
    rw [Finset.card_empty, region, nodes] at full
    exact absurd full (by decide)
  · rw [exhausted] at broken
    cases broken

/-- A query about 64-bit numbers that neither returns nor reports a failure. -/
theorem Solver.leastProduct_unanswered :
    leastProduct.Within .words ∧ ¬ ∃ r t, (isUnsat leastProduct).run ⟨{}, {}⟩ = .ok (r, t) := by
  constructor
  · simp [leastProduct, Formula.Within, Term.Within, Vocabulary.words, Machine.fits, Machine.bound64]
  · rintro ⟨r, t, answered⟩
    rw [leastProduct_run] at answered
    cases answered

end ProgramAnalysis
