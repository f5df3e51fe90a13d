import Mathlib
import ProgramAnalysis.Proofs.Linear.Elimination
import ProgramAnalysis.Proofs.Solver.Room
import ProgramAnalysis.Solver.Query

/-! The answers of the solver. A path is given up only if its literals have no integer solution, so a
formula that is found unsatisfiable is; without arithmetic no path is given up and every answer is
right. -/
namespace ProgramAnalysis

open Attempt (Ensures)

namespace Attempt

variable {ε σ α : Type} {bad : Violation → Prop} {fail : ε → σ → Prop}

/-- What each test says of the element it looks at, where the tests keep an invariant of the state. -/
theorem ensures_anyM {xs : List α} {test : α → Attempt ε σ Bool} {tells : α → Bool → Prop} {s : σ}
    (inv : σ → Prop) (start : inv s) (each : ∀ x ∈ xs, ∀ s, inv s →
      Ensures (test x) s bad fail fun b t => inv t ∧ tells x b) :
    Ensures (xs.anyM test) s bad fail fun b t => inv t ∧
      (b = true → ∃ x ∈ xs, tells x true) ∧ (b = false → ∀ x ∈ xs, tells x false) := by
  induction xs generalizing s with
  | nil => simpa [List.anyM] using start
  | cons x xs ih =>
    obtain ⟨here, rest⟩ := List.forall_mem_cons.mp each
    rw [List.anyM, ensures_bind]
    apply (here s start).mono
    rintro b t ⟨kept, tells⟩
    cases b with
    | true =>
      refine ⟨kept, fun _ => ⟨x, List.mem_cons_self, tells⟩, fun no => ?_⟩
      cases no
    | false =>
      apply (ih kept rest).mono
      rintro b u ⟨kept, found, missing⟩
      refine ⟨kept, fun yes => ?_, fun no => ?_⟩
      · obtain ⟨y, mem, tells⟩ := found yes
        exact ⟨y, List.mem_cons_of_mem _ mem, tells⟩
      · exact List.forall_mem_cons.mpr ⟨tells, missing no⟩

end Attempt

namespace Skeleton

/-- The answer of a check of a path, which depends on nothing but the literals and the limits. -/
def consistent? (limits : SolverLimits) (k : Skeleton) (path : List Int) :
    Outcome SolverFailure Bool :=
  match (Constraint.ofLiterals (k.literals path)).run [] with
  | .error e => throw e
  | .ok (constraints, _) => Constraint.areConsistent limits constraints

def Decides (limits : SolverLimits) (k : Skeleton) (path : List Int) (answer : Bool) : Prop :=
  (k.consistent? limits path).run = .ok (.ok answer)

def Breaks (limits : SolverLimits) (k : Skeleton) (path : List Int) (v : Violation) : Prop :=
  (k.consistent? limits path).run = .error v

def Fails (limits : SolverLimits) (k : Skeleton) (path : List Int) (e : SolverFailure) : Prop :=
  (k.consistent? limits path).run = .ok (.error e)

theorem Decides.unique {limits : SolverLimits} {k : Skeleton} {path : List Int} {b c : Bool}
    (first : k.Decides limits path b) (second : k.Decides limits path c) : b = c :=
  Except.ok.inj (Except.ok.inj (first.symm.trans second))

theorem decides_of_split {limits : SolverLimits} {k : Skeleton} {path : List Int}
    {cs : List Constraint} {terms : List Term} {answer : Bool} {n : Nat}
    (constraints : (Constraint.ofLiterals (k.literals path)).run [] = .ok (cs, terms))
    (solved : (Elimination.split limits (cs.filterMap fun | .zero e => some e | _ => none).reverse
      (cs.filterMap fun | .nonzero e => some e | _ => none)
      (cs.filterMap fun | .atMostZero e => some e | _ => none)).run 0 = pure (answer, n)) :
    k.Decides limits path answer := by
  unfold Decides consistent?
  rw [constraints]
  have consistent : Constraint.areConsistent limits cs = pure answer := by
    unfold Constraint.areConsistent
    exact congrArg (· >>= _) solved
  exact congrArg ExceptT.run consistent

theorem decides_of_equations {limits : SolverLimits} {k : Skeleton} {path : List Int}
    {eqs : List LinearForm} {terms : List Term} {answer : Bool}
    (constraints : (Constraint.ofLiterals (k.literals path)).run [] = .ok (eqs.map .zero, terms))
    (solved : Elimination.equations limits eqs.reverse [] = pure answer) :
    k.Decides limits path answer := by
  unfold Decides consistent?
  rw [constraints]
  exact congrArg ExceptT.run (Constraint.areConsistent_zero solved)

end Skeleton

namespace Solver

variable {ops : Operators} {f a b : Formula} {k : Skeleton} {s : Solver}

/-- A computation of the solver whose results satisfy `good`; it may fail. -/
def Yields {α : Type} (act : SolverM α) (s : Solver) (good : α → Prop) : Prop :=
  Ensures act s (fun _ => True) (fun _ _ => True) fun a _ => good a

theorem count_ensures {bad : Violation → Prop} {fail : SolverFailure → Solver → Prop} {β : Type}
    {g : QueryCounters → QueryCounters} {next : SolverM β} {good : β → Solver → Prop} :
    Ensures (do count g; next) s bad fail good ↔
      Ensures next { s with counters := g s.counters } bad fail good := by
  unfold count
  rw [Attempt.ensures_bind, Attempt.ensures_modify]

theorem checkPath_decides (path : List Int) (s : Solver) :
    Ensures (checkPath k path) s (k.Breaks s.limits path)
      (fun e t => t.limits = s.limits ∧ k.Fails s.limits path e)
      fun answer t => t.limits = s.limits ∧ k.Decides s.limits path answer := by
  unfold checkPath Skeleton.Decides Skeleton.Breaks Skeleton.Fails Skeleton.consistent?
  rw [count_ensures, Attempt.ensures_bind, Attempt.ensures_get]
  cases (Constraint.ofLiterals (k.literals path)).run [] with
  | error e => exact ⟨rfl, rfl⟩
  | ok r =>
    obtain ⟨constraints, known⟩ := r
    simp only
    rw [Attempt.ensures_bind, Attempt.ensures_lift, Checked.ensures_liftM]
    refine ⟨fun r consistent => ?_, fun v broken => broken⟩
    cases r with
    | error e => exact ⟨rfl, consistent⟩
    | ok answer => exact ⟨rfl, consistent⟩

/-- No path of a formula is consistent under the limits. -/
def Refuted (limits : SolverLimits) (f : Formula) : Prop :=
  ∃ k, Skeleton.ofFormula f = .ok k ∧
    ∀ path ∈ k.diagram.paths k.root, k.Decides limits path false

/-- The formula has no skeleton, or the check of one of its paths ends with a violation. -/
def Interrupted (limits : SolverLimits) (f : Formula) (v : Violation) : Prop :=
  Skeleton.ofFormula f = .error v ∨ ∃ k, Skeleton.ofFormula f = .ok k ∧
    ∃ path ∈ k.diagram.paths k.root, k.Breaks limits path v

def Unanswered (limits : SolverLimits) (f : Formula) (e : SolverFailure) : Prop :=
  ∃ k, Skeleton.ofFormula f = .ok k ∧ ∃ path ∈ k.diagram.paths k.root, k.Fails limits path e

theorem refute_answers (f : Formula) (s : Solver) :
    Ensures (refute f) s (Interrupted s.limits f)
      (fun e t => t.limits = s.limits ∧ Unanswered s.limits f e) fun answer t =>
        t.limits = s.limits ∧ ∃ k, Skeleton.ofFormula f = .ok k ∧
          (answer = true ↔ ∀ path ∈ k.diagram.paths k.root, k.Decides s.limits path false) := by
  unfold refute
  rw [Attempt.ensures_bind, Attempt.ensures_lift, Checked.ensures_liftM]
  refine ⟨fun k made => ?_, fun v broken => .inl broken⟩
  rw [Attempt.ensures_bind, Diagram.anyPath_eq]
  have checked (path : List Int) (mem : path ∈ k.diagram.paths k.root) (t : Solver)
      (same : t.limits = s.limits) :
      Ensures (checkPath k path) t (Interrupted s.limits f)
        (fun e t => t.limits = s.limits ∧ Unanswered s.limits f e)
        fun b t => t.limits = s.limits ∧ k.Decides s.limits path b := by
    have decides := checkPath_decides (k := k) path t
    rw [same] at decides
    exact (decides.weaken fun v breaks => .inr ⟨k, made, path, mem, breaks⟩).imp
      (fun _ _ => id) fun e t ⟨same, fails⟩ => ⟨same, k, made, path, mem, fails⟩
  refine (Attempt.ensures_anyM (fun (t : Solver) => t.limits = s.limits) rfl
    fun path mem => checked path (by simpa using mem)).mono ?_
  rintro answer t ⟨same, found, missing⟩
  rw [Attempt.ensures_pure, Bool.not_eq_true']
  refine ⟨same, k, made, fun no => by simpa using missing no, fun refuted => ?_⟩
  cases answer with
  | false => rfl
  | true =>
    obtain ⟨path, mem, consistent⟩ := found rfl
    exact (Bool.false_ne_true ((refuted path (by simpa using mem)).unique consistent)).elim

theorem refute_decides (f : Formula) (s : Solver) :
    Ensures (refute f) s (Interrupted s.limits f) (fun _ t => t.limits = s.limits) fun answer t =>
      t.limits = s.limits ∧ (answer = true ↔ Refuted s.limits f) := by
  refine (refute_answers f s).imp ?_ fun _ _ => And.left
  rintro answer t ⟨same, k, made, answers⟩
  refine ⟨same, fun yes => ⟨k, made, answers.mp yes⟩, ?_⟩
  rintro ⟨k', made', refuted⟩
  cases made.symm.trans made'
  exact answers.mpr refuted

/-- Every path of the formula is decided. -/
def Answered (limits : SolverLimits) (f : Formula) : Prop :=
  ∃ k, Skeleton.ofFormula f = .ok k ∧
    ∀ path ∈ k.diagram.paths k.root, ∃ b, k.Decides limits path b

theorem Answered.not_interrupted {limits : SolverLimits} {v : Violation}
    (answered : Answered limits f) : ¬ Interrupted limits f v := by
  obtain ⟨k, made, decided⟩ := answered
  rintro (broken | ⟨k', made', path, mem, breaks⟩)
  · cases made.symm.trans broken
  · cases made.symm.trans made'
    obtain ⟨b, decides⟩ := decided path mem
    cases decides.symm.trans breaks

theorem Answered.not_unanswered {limits : SolverLimits} {e : SolverFailure}
    (answered : Answered limits f) : ¬ Unanswered limits f e := by
  obtain ⟨k, made, decided⟩ := answered
  rintro ⟨k', made', path, mem, fails⟩
  cases made.symm.trans made'
  obtain ⟨b, decides⟩ := decided path mem
  cases decides.symm.trans fails

theorem refute_returns (answered : Answered s.limits f) :
    Ensures (refute f) s (fun _ => False) (fun _ _ => False) fun answer t =>
      t.limits = s.limits ∧ (answer = true ↔ Refuted s.limits f) := by
  have decides := (refute_answers f s).and (refute_decides f s)
  exact (decides.weaken fun _ => answered.not_interrupted).imp (fun _ _ => And.right)
    fun _ _ fails => answered.not_unanswered fails.1.2

theorem not_holds_of_decides (integral : ops.Integral) {limits : SolverLimits} {path : List Int}
    (words : ∀ l ∈ k.literals path, l.1.Within .words) (decides : k.Decides limits path false)
    (m : Assignment) : ¬ k.Holds ops m path := by
  intro holds
  unfold Skeleton.Decides Skeleton.consistent? at decides
  split at decides
  · cases decides
  · rename_i constraints known linearized
    obtain ⟨-, increasing, required⟩ :=
      (Constraint.ofLiterals_ensures integral (k.literals path) words).of_ok linearized
    have solved := required known (List.prefix_refl _) m holds
    exact Bool.false_ne_true
      (Constraint.areConsistent_yields increasing solved false decides)

/-- A path that holds somewhere is found consistent, if the check has an answer. -/
theorem decides_of_holds (integral : ops.Integral) {limits : SolverLimits} {path : List Int}
    (words : ∀ l ∈ k.literals path, l.1.Within .words) (decided : ∃ b, k.Decides limits path b)
    {m : Assignment} (holds : k.Holds ops m path) : k.Decides limits path true := by
  obtain ⟨b, decides⟩ := decided
  cases b with
  | false => exact absurd holds (not_holds_of_decides integral words decides m)
  | true => exact decides

theorem Refuted.holds_eq_false (integral : ops.Integral) (words : f.Within .words)
    {limits : SolverLimits} (refuted : Refuted limits f) (m : Assignment) :
    f.holds ops m = false := by
  obtain ⟨k, made, none⟩ := refuted
  have encodes := Skeleton.ofFormula_encodes made
  by_contra holds
  obtain ⟨path, mem, satisfied⟩ := encodes.exists_path (Bool.of_not_eq_false holds)
  exact not_holds_of_decides integral (encodes.literals_within words path) (none path mem) m
    satisfied

theorem not_refuted (integral : ops.Integral) {limits : SolverLimits} (words : f.Within .words)
    {m : Assignment} (holds : f.holds ops m = true) : ¬ Refuted limits f := by
  intro refuted
  rw [refuted.holds_eq_false integral words m] at holds
  cases holds

theorem isUnsat_decides (f : Formula) (s : Solver) :
    Ensures (isUnsat f) s (Interrupted s.limits f) (fun _ t => t.limits = s.limits) fun answer t =>
      t.limits = s.limits ∧ (answer = true ↔ Refuted s.limits f) := by
  unfold isUnsat
  rw [count_ensures]
  exact refute_decides f _

theorem isUnsat_returns (answered : Answered s.limits f) :
    Ensures (isUnsat f) s (fun _ => False) (fun _ _ => False) fun answer t =>
      t.limits = s.limits ∧ (answer = true ↔ Refuted s.limits f) := by
  unfold isUnsat
  rw [count_ensures]
  exact refute_returns answered

theorem implies_decides (a b : Formula) (s : Solver) :
    Ensures (implies a b) s (Interrupted s.limits (.conj [a, b.negate]))
      (fun _ t => t.limits = s.limits) fun answer t =>
        t.limits = s.limits ∧ (answer = true ↔ Refuted s.limits (.conj [a, b.negate])) := by
  unfold implies
  rw [count_ensures]
  exact refute_decides _ _

theorem implies_returns (answered : Answered s.limits (.conj [a, b.negate])) :
    Ensures (implies a b) s (fun _ => False) (fun _ _ => False) fun answer t =>
      t.limits = s.limits ∧ (answer = true ↔ Refuted s.limits (.conj [a, b.negate])) := by
  unfold implies
  rw [count_ensures]
  exact refute_returns answered

end Solver

theorem Prover.isUnsat_decides (p : Prover) (s : Solver) :
    Ensures p.isUnsat s (Solver.Interrupted s.limits p.conjunction)
      (fun _ t => t.limits = s.limits) fun answer t =>
        t.limits = s.limits ∧ (answer = true ↔ Solver.Refuted s.limits p.conjunction) := by
  unfold Prover.isUnsat
  rw [Solver.count_ensures]
  exact Solver.refute_decides _ _

theorem Prover.isUnsat_returns {p : Prover} {s : Solver}
    (answered : Solver.Answered s.limits p.conjunction) :
    Ensures p.isUnsat s (fun _ => False) (fun _ _ => False) fun answer t =>
      t.limits = s.limits ∧ (answer = true ↔ Solver.Refuted s.limits p.conjunction) := by
  unfold Prover.isUnsat
  rw [Solver.count_ensures]
  exact Solver.refute_returns answered

namespace Solver

/-! ### Formulas without arithmetic -/

theorem areConsistent_nil (limits : SolverLimits) :
    (Constraint.areConsistent limits []).run = .ok (.ok true) := by
  have eliminated : Elimination.eliminate limits [] [] = pure true := by
    rw [Elimination.eliminate]
    rfl
  have sorted : LinearForm.sorted [] = [] := by simp [LinearForm.sorted, LinearForm.dedup]
  have tightened : Elimination.inequalities limits [] =
      Elimination.eliminate limits
        ((LinearForm.sorted []).flatMap fun e => e.coeffs.map (·.1)).eraseDups.mergeSort
        (LinearForm.sorted []) := rfl
  have solved : Elimination.equations limits [] [] = pure true := by
    rw [Elimination.equations, tightened, sorted]
    simpa using eliminated
  exact congrArg ExceptT.run (@Constraint.areConsistent_zero limits [] true solved)

/-- Without arithmetic literals every path is consistent. -/
theorem decides_of_props {k : Skeleton} (props : ∀ a ∈ k.atoms, ∃ x, a = .prop x)
    (limits : SolverLimits) (path : List Int) : k.Decides limits path true := by
  have none : ∀ ls : List (Formula × Bool), (∀ l ∈ ls, ∃ x, l.1 = .prop x) →
      (Constraint.ofLiterals ls).run [] = .ok ([], []) := by
    intro ls
    induction ls with
    | nil => exact fun _ => rfl
    | cons l ls ih =>
      intro all
      obtain ⟨⟨x, prop⟩, rest⟩ := List.forall_mem_cons.mp all
      obtain ⟨a, truth⟩ := l
      obtain rfl : a = .prop x := prop
      exact ih rest
  have literals : ∀ l ∈ k.literals path, ∃ x, l.1 = .prop x := by
    intro l mem
    obtain ⟨lit, -, found⟩ := List.mem_filterMap.mp mem
    obtain ⟨a, here, rfl⟩ := Option.map_eq_some_iff.mp found
    exact props a (Array.mem_of_getElem? here)
  unfold Skeleton.Decides Skeleton.consistent?
  rw [none _ literals]
  exact areConsistent_nil limits

theorem answered_of_noAtoms (noAtoms : f.atomOccurrences = [])
    (fits : Skeleton.room f + 2 < 0x7fffffff) (limits : SolverLimits) : Answered limits f := by
  obtain ⟨k, made⟩ := Skeleton.exists_ofFormula fits
  have props : ∀ a ∈ k.atoms, ∃ x, a = .prop x := fun a mem =>
    Formula.prop_of_mem_leaves noAtoms ((Skeleton.ofFormula_encodes made).leaves a mem)
  exact ⟨k, made, fun path _ => ⟨true, decides_of_props props limits path⟩⟩

theorem answered_bool (limits : SolverLimits) (v : Bool) : Answered limits (.bool v) :=
  answered_of_noAtoms rfl (by rw [show Skeleton.room (.bool v) = 2 by cbv]; decide) limits

/-- The query answers whether the formula is unsatisfiable. It has no answer only where the nodes of the
formula and of the formulas on the way to it are more than there are numbers for. -/
def Decided (ops : Operators) (f : Formula) (s : Solver) (query : SolverM Bool) : Prop :=
  query.run s = .error .nodesExhausted ∧ Skeleton.Exhausts f .nodesExhausted ∨
    ∃ answer t, query.run s = .ok (.ok answer, t) ∧ (answer = true ↔ ∀ m, f.holds ops m = false)

theorem Decided.of_ensures {query : SolverM Bool} (ensured : Ensures query s (Skeleton.Exhausts f)
    (fun _ _ => False) fun answer _ => answer = true ↔ ∀ m, f.holds ops m = false) :
    Decided ops f s query := by
  cases run : query.run s with
  | error v =>
    have exhausts := ensured.of_violation run
    obtain rfl := exhausts.eq
    exact .inl ⟨run, exhausts⟩
  | ok r =>
    obtain ⟨answer | answer, t⟩ := r
    · exact (Checked.Ensures.of_ok ensured run).elim
    · exact .inr ⟨answer, t, run, ensured.of_ok run⟩

/-- A formula that is false for all truth values of its atoms has no path. -/
theorem refuted_of_free (made : Skeleton.ofFormula f = .ok k) (free : Skeleton.Free ops k.atoms)
    (never : ∀ m, f.holds ops m = false) (limits : SolverLimits) : Refuted limits f := by
  have encodes := Skeleton.ofFormula_encodes made
  refine ⟨k, made, fun path mem => ?_⟩
  obtain ⟨m, satisfied⟩ := encodes.exists_holds_of_free free mem
  have holds := encodes.holds_iff_exists_path.mpr ⟨path, mem, satisfied⟩
  rw [never m] at holds
  cases holds

theorem refuted_false (limits : SolverLimits) : Refuted limits (.bool false) := by
  obtain ⟨k, made, -⟩ := answered_bool limits false
  have atoms : k.atoms = #[] := (Skeleton.ofFormula_encodes made).atoms
  have free : Skeleton.Free .standard k.atoms := atoms ▸ Skeleton.free_empty .standard
  exact refuted_of_free made free (fun _ => rfl) limits

theorem Refuted.answered {limits : SolverLimits} (refuted : Refuted limits f) : Answered limits f := by
  obtain ⟨k, made, none⟩ := refuted
  exact ⟨k, made, fun path mem => ⟨false, none path mem⟩⟩

/-- Every model of the formula has the literals, whose atoms do not depend on each other. -/
structure Forces (ops : Operators) (f : Formula) (ls : List (Formula × Bool)) : Prop where
  atoms : Skeleton.atomsOf f = (ls.map (·.1)).toArray
  free : Skeleton.Free ops (ls.map (·.1)).toArray
  forced : ∀ m, f.holds ops m = true → ∀ l ∈ ls, l.1.holds ops m = l.2

variable {ls : List (Formula × Bool)} {path : List Int} {limits : SolverLimits} {b : Bool}

theorem forces_conj (eq : f = .conj (ls.map Skeleton.ofLiteral))
    (atoms : Skeleton.atomsOf f = (ls.map (·.1)).toArray)
    (free : Skeleton.Free ops (ls.map (·.1)).toArray) : Forces ops f ls := by
  refine ⟨atoms, free, fun m holds l mem => ?_⟩
  rw [eq, Formula.holds_conj, List.forall_mem_map] at holds
  exact (Skeleton.holds_ofLiteral l).mp (holds l mem)

/-- So it has no other path. -/
theorem Forces.literals (forces : Forces ops f ls) (made : Skeleton.ofFormula f = .ok k)
    (mem : path ∈ k.diagram.paths k.root) : k.literals path = ls := by
  have encodes := Skeleton.ofFormula_encodes made
  have atoms : k.atoms = (ls.map (·.1)).toArray := encodes.atoms.trans forces.atoms
  have rigid (m n : Assignment) (holds : f.holds ops m = true) (model : f.holds ops n = true) :
      ∀ a ∈ k.atoms, (∀ b ∈ k.atoms, b ≠ a → b.holds ops n = b.holds ops m) →
        a.holds ops n = a.holds ops m := by
    intro a inside _
    rw [atoms, List.mem_toArray] at inside
    obtain ⟨l, mem, rfl⟩ := List.mem_map.mp inside
    rw [forces.forced m holds l mem, forces.forced n model l mem]
  obtain ⟨m, holds, literals⟩ := encodes.literals_of_rigid (atoms ▸ forces.free) rigid mem
  have same : ls.map ((fun a => (a, a.holds ops m)) ∘ (·.1)) = ls.map id :=
    List.map_congr_left fun l mem => Prod.ext rfl (forces.forced m holds l mem)
  rw [literals, atoms, List.map_map, same, List.map_id]

theorem Forces.answered (forces : Forces ops f ls) (fits : Skeleton.room f + 2 < 0x7fffffff)
    (decides : ∀ (k : Skeleton) (path : List Int), k.literals path = ls → k.Decides limits path b) :
    Answered limits f := by
  obtain ⟨k, made⟩ := Skeleton.exists_ofFormula fits
  exact ⟨k, made, fun path mem => ⟨b, decides k path (forces.literals made mem)⟩⟩

theorem Forces.refuted (forces : Forces ops f ls) (fits : Skeleton.room f + 2 < 0x7fffffff)
    (decides : ∀ (k : Skeleton) (path : List Int), k.literals path = ls →
      k.Decides limits path false) : Refuted limits f := by
  obtain ⟨k, made⟩ := Skeleton.exists_ofFormula fits
  exact ⟨k, made, fun path mem => decides k path (forces.literals made mem)⟩

end Solver

/-! ### A chain

The check of a chain `x ≤ y ≤ z` eliminates variables. -/

namespace Chain

def firstStep : Formula := .atom .le (.symbolic "x") (.symbolic "y")

def secondStep : Formula := .atom .le (.symbolic "y") (.symbolic "z")

def steps : Formula := .nary .and [firstStep, secondStep]

def difference : Term := .binary .sub (.symbolic "x") (.symbolic "z")

def whole : Formula := .atom .le difference (.const 0)

/-- Two inequalities at a time, and one split. -/
def tight : SolverLimits := ⟨2, 1⟩

/-- Operators under which the literals do not depend on each other: differences are sums. -/
def mirrored : Operators where
  neg a := a
  bitNot a := a
  binary _ a b := a + b

/-- The steps go down by 2 where they do not hold, and the sum of the ends is 0 or positive. -/
def values (named first second sum : Bool) : Assignment where
  number x :=
    let drop (step : Bool) : Int := if step then 0 else 2
    let start : Int := if sum then (drop first + drop second) / 2 else 5
    if x.name = "x" then start
    else if x.name = "y" then start - drop first
    else start - drop first - drop second
  truth _ := named

/-- The steps together imply the whole. -/
theorem refuted_steps : Solver.Refuted tight (.conj [steps, whole.negate]) := by
  have forces : Solver.Forces mirrored (.conj [steps, whole.negate])
      [(firstStep, true), (secondStep, true), (whole, false)] :=
    Solver.forces_conj (by cbv) (by cbv) (Skeleton.free_triple (values true) (by decide))
  refine forces.refuted (by cbv) fun k path known => ?_
  unfold Skeleton.Decides Skeleton.consistent?
  rw [known]
  cbv

theorem implies_whole : ∃ s, (Solver.implies steps whole).run ⟨tight, {}⟩ = .ok (.ok true, s) := by
  obtain ⟨answer, s, run, -, decides⟩ :=
    (Solver.implies_returns (s := ⟨tight, {}⟩) refuted_steps.answered).exists_run
  obtain rfl : answer = true := decides.mpr refuted_steps
  exact ⟨s, run⟩

end Chain

namespace Solver

variable {f : Formula} {ops : Operators} {a b : Formula}

end Solver

end ProgramAnalysis
