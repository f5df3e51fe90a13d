import Mathlib
import ProgramAnalysis.Proofs.Linear.Limits
import ProgramAnalysis.Proofs.Predicate.Registry
import ProgramAnalysis.Proofs.Solver.AllSat

/-! Limits of the solver. A query runs through the same paths under any limits, and the check of a path
that has an answer has it under larger limits. So a query that has an answer runs the same way under larger
limits and makes the same regions. -/
namespace ProgramAnalysis

namespace Attempt

variable {ε σ τ α β : Type} {R : σ → σ → Prop} {act : Attempt ε σ α}

/-- An answer is the same from every related state, and related states are left behind. -/
def Persists (R : σ → σ → Prop) (act : Attempt ε σ α) : Prop :=
  ∀ s t a s', R s t → act.run s = .ok (.ok a, s') → ∃ t', act.run t = .ok (.ok a, t') ∧ R s' t'

theorem persists_pure (a : α) : Persists R (pure a : Attempt ε σ α) := by
  intro s t b s' related run
  cases run
  exact ⟨t, rfl, related⟩

theorem persists_modify {f : σ → σ} (keeps : ∀ s t, R s t → R (f s) (f t)) :
    Persists R (modify f : Attempt ε σ PUnit) := by
  intro s t a s' related run
  cases run
  exact ⟨f t, rfl, keeps s t related⟩

/-- What does not look at the state. -/
theorem persists_lift (act : Except Violation α) :
    Persists R (lift (liftM act) : Attempt ε σ α) := by
  intro s t a s' related run
  cases act with
  | error v => cases run
  | ok b =>
    cases run
    exact ⟨t, rfl, related⟩

theorem Persists.bind {next : α → Attempt ε σ β} (first : Persists R act)
    (later : ∀ a, Persists R (next a)) : Persists R (act >>= next) := by
  intro s t b s' related run
  rw [ExceptT.run_bind] at run
  obtain ⟨r, s₁, here, run⟩ := Checked.exists_of_bind run
  cases r with
  | error e => cases run
  | ok a =>
    obtain ⟨t₁, there, related⟩ := first s t a s₁ related here
    obtain ⟨t', rest, related⟩ := later a s₁ t₁ b s' related run
    exact ⟨t', (Checked.run_bind_of_ok there).trans rest, related⟩

theorem persists_anyM {test : α → Attempt ε σ Bool} {xs : List α}
    (each : ∀ x ∈ xs, Persists R (test x)) : Persists R (xs.anyM test) := by
  induction xs with
  | nil => exact persists_pure false
  | cons x xs ih =>
    obtain ⟨here, rest⟩ := List.forall_mem_cons.mp each
    rw [List.anyM]
    apply here.bind
    intro b
    cases b with
    | true => exact persists_pure true
    | false => exact ih rest

theorem persists_anyM_run {test : α → StateT τ (Attempt ε σ) Bool} {xs : List α}
    (each : ∀ x ∈ xs, ∀ c, Persists R ((test x).run c)) (c : τ) :
    Persists R ((xs.anyM test).run c) := by
  induction xs generalizing c with
  | nil => exact persists_pure (false, c)
  | cons x xs ih =>
    obtain ⟨here, rest⟩ := List.forall_mem_cons.mp each
    rw [List.anyM, StateT.run_bind]
    apply (here c).bind
    rintro ⟨b, c'⟩
    cases b with
    | true => exact persists_pure (true, c')
    | false => exact ih rest c'

theorem persists_run_liftM (persists : Persists R act) (c : τ) :
    Persists R ((liftM act : StateT τ (Attempt ε σ) α).run c) :=
  persists.bind fun a => persists_pure (a, c)

end Attempt

open Attempt (Ensures Persists persists_pure)

theorem Skeleton.Decides.persists {l l' : SolverLimits} {k : Skeleton} {path : List Int} {b : Bool}
    (decides : k.Decides l path b) (le : l ≤ l') : k.Decides l' path b := by
  unfold Decides consistent? at decides ⊢
  split at decides
  · cases decides
  · exact Constraint.areConsistent_persists le _ b decides

theorem Skeleton.decides_iff {l l' : SolverLimits} {k : Skeleton} {path : List Int} (le : l ≤ l')
    (decided : ∃ b, k.Decides l path b) (c : Bool) : k.Decides l' path c ↔ k.Decides l path c := by
  obtain ⟨b, decides⟩ := decided
  constructor
  · intro again
    cases (decides.persists le).unique again
    exact decides
  · exact fun decides => decides.persists le

namespace Solver

def Looser (s t : Solver) : Prop := s.limits ≤ t.limits

theorem count_persists (f : QueryCounters → QueryCounters) : Persists Looser (count f) :=
  Attempt.persists_modify fun _ _ looser => looser

theorem checkPath_persists (k : Skeleton) (path : List Int) : Persists Looser (checkPath k path) := by
  intro s t b s' looser run
  obtain ⟨same, decides⟩ := (checkPath_decides path s).of_ok run
  have decides' := decides.persists looser
  have checked := checkPath_decides (k := k) path t
  unfold Skeleton.Breaks Skeleton.Fails at checked
  rw [decides'] at checked
  obtain ⟨b', t', run', same', again⟩ :=
    ((checked.weaken nofun).imp (fun _ _ => id) nofun).exists_run
  cases decides'.unique again
  refine ⟨t', run', ?_⟩
  unfold Looser
  rw [same, same']
  exact looser

theorem refute_persists (f : Formula) : Persists Looser (refute f) := by
  apply (Attempt.persists_lift _).bind
  intro k
  rw [Diagram.anyPath_eq]
  apply (Attempt.persists_anyM fun path _ => checkPath_persists k path).bind
  exact fun answer => persists_pure (!answer)

end Solver

namespace Prover

def Looser (s t : Solver × Diagram) : Prop := s.1.Looser t.1 ∧ s.2 = t.2

theorem solver_run {α : Type} (act : SolverM α) (s : Solver) (d : Diagram) :
    (RegionSolverM.solver act).run (s, d) = (act.run s).map fun r => (r.1, (r.2, d)) := by
  unfold RegionSolverM.solver Attempt.zoom Checked.zoom
  rw [ExceptT.run_mk]
  cases run : act.run s with
  | error v => simp [run, Except.map]
  | ok r => simp [run, Except.map]

theorem regions_run {α : Type} (act : DiagramM α) (s : Solver) (d : Diagram) :
    (RegionSolverM.regions act).run (s, d) = (act d).map fun r => (.ok r.1, (s, r.2)) := by
  unfold RegionSolverM.regions Attempt.lift Checked.zoom
  cases run : act d <;>
    simp [ExceptT.run_lift, Functor.map, StateT.map, run, Except.map, bind, pure, Except.bind,
      Except.pure]

theorem solver_persists {α : Type} {act : SolverM α} (persists : Persists Solver.Looser act) :
    Persists Looser (RegionSolverM.solver act) := by
  rintro ⟨s, d⟩ ⟨t, _⟩ a s' ⟨looser, rfl⟩ run
  rw [solver_run] at run
  cases here : act.run s with
  | error v =>
    rw [here] at run
    cases run
  | ok r =>
    obtain ⟨r, s₁⟩ := r
    rw [here] at run
    cases run
    obtain ⟨t', there, looser'⟩ := persists s t a s₁ looser here
    refine ⟨(t', d), ?_, looser', rfl⟩
    rw [solver_run, there]
    rfl

theorem regions_persists {α : Type} (act : DiagramM α) :
    Persists Looser (RegionSolverM.regions act) := by
  rintro ⟨s, d⟩ ⟨t, _⟩ a s' ⟨looser, rfl⟩ run
  rw [regions_run] at run
  cases here : act d with
  | error v =>
    rw [here] at run
    cases run
  | ok r =>
    rw [here] at run
    cases run
    refine ⟨(t, r.2), ?_, looser, rfl⟩
    rw [regions_run, here]
    rfl

theorem allSat_persists (p : Prover) (important : List (Formula × Region)) :
    Persists Looser (p.allSat important) := by
  unfold allSat
  apply (solver_persists (Solver.count_persists _)).bind
  intro _
  apply (Attempt.persists_lift _).bind
  intro k
  dsimp only
  rw [Diagram.anyPath_eq]
  refine Persists.bind (Attempt.persists_anyM_run ?_ _) fun r => persists_pure r.2
  intro path _ answer
  rw [StateT.run_bind]
  apply (Attempt.persists_run_liftM (solver_persists (Solver.checkPath_persists k path)) answer).bind
  rintro ⟨consistent, answer⟩
  cases consistent with
  | false => exact persists_pure (false, answer)
  | true =>
    simp only [if_true, StateT.run_bind, StateT.run_get, StateT.run_modify, StateT.run_pure, pure_bind]
    apply (Attempt.persists_run_liftM (regions_persists _) _).bind
    intro cube
    apply (Attempt.persists_run_liftM (regions_persists _) _).bind
    exact fun region => persists_pure _

/-! ### In a diagram that has grown

The models may be asked for again after more regions were made. -/

variable {important : List (Formula × Region)} {k : Skeleton} {l l' : SolverLimits}
  {s t u : Solver × Diagram} {answer : AllSat}

/-- Each path that is found consistent is counted. -/
def Counts (l : SolverLimits) (k : Skeleton) (paths : List (List Int)) (n : Nat) : Prop :=
  ∃ checks, List.Forall₂ (k.Decides l) paths checks ∧ n = checks.count true

theorem Counts.concat {paths : List (List Int)} {path : List Int} {n : Nat} {b : Bool}
    (counts : Counts l k paths n) (decides : k.Decides l path b) :
    Counts l k (paths ++ [path]) (n + b.toNat) := by
  obtain ⟨checks, each, rfl⟩ := counts
  refine ⟨checks ++ [b], List.rel_append each (.cons decides .nil), ?_⟩
  cases b <;> simp

theorem Counts.unique {paths : List (List Int)} {n n' : Nat} (counts : Counts l k paths n)
    (le : l ≤ l') (counts' : Counts l' k paths n') : n = n' := by
  obtain ⟨checks, each, rfl⟩ := counts
  obtain ⟨checks', each', rfl⟩ := counts'
  have same : checks = checks' := by
    induction each generalizing checks' with
    | nil =>
      cases each'
      rfl
    | cons decides _ ih =>
      cases each' with
      | cons decides' each' =>
        rw [(decides.persists le).unique decides', ih _ each']
  rw [same]

theorem regions_keep {α : Type} (act : DiagramM α) (s : Solver × Diagram) :
    Ensures (RegionSolverM.regions act) s (fun _ => True) (fun _ _ => True) fun _ t => t.1 = s.1 := by
  rw [regions_ensures]
  exact Checked.ensures_of_forall (fun _ _ _ => rfl) fun _ _ => trivial

theorem allSat_counts (p : Prover) (s : Solver × Diagram) :
    Ensures (p.allSat important) s (fun _ => True) (fun _ _ => True) fun answer _ =>
      ∃ k, Skeleton.ofFormula p.conjunction = .ok k ∧
        Counts s.1.limits k (k.diagram.paths k.root) answer.count := by
  unfold allSat
  rw [Attempt.ensures_bind, solver_ensures]
  unfold Solver.count
  rw [Attempt.ensures_modify, Attempt.ensures_bind, Attempt.ensures_lift, Checked.ensures_liftM]
  refine ⟨fun k made => ?_, fun _ _ => trivial⟩
  dsimp only
  rw [Attempt.ensures_bind, Diagram.anyPath_eq]
  refine (ensures_anyM_run (fun rest answer t => t.1.limits = s.1.limits ∧
    ∃ done, done ++ rest = k.diagram.paths k.root ∧ Counts s.1.limits k done answer.count) ?_ ?_).mono ?_
  · exact ⟨rfl, [], by simp, [], .nil, rfl⟩
  · rintro path rest answer t ⟨same, done, whole, counts⟩
    have whole' : (done ++ [path]) ++ rest = k.diagram.paths k.root := by simp [← whole]
    rw [StateT.run_bind, Attempt.ensures_bind, ensures_run_liftM, solver_ensures]
    have checked := Solver.checkPath_decides (k := k) path t.1
    rw [same] at checked
    refine (checked.weaken fun _ _ => trivial).imp ?_ fun _ _ _ => trivial
    rintro consistent s' ⟨same', decides⟩
    have counts' := counts.concat decides
    cases consistent with
    | false => exact ⟨rfl, same', done ++ [path], whole', counts'⟩
    | true =>
      simp only [if_true]
      rw [StateT.run_bind, Attempt.ensures_bind, ensures_run_liftM]
      apply (regions_keep _ _).mono
      intro cube t₁ same₁
      rw [StateT.run_bind, Attempt.ensures_bind, StateT.run_get, Attempt.ensures_pure,
        StateT.run_bind, Attempt.ensures_bind, ensures_run_liftM]
      apply (regions_keep _ _).mono
      intro region t₂ same₂
      refine ⟨rfl, ?_, done ++ [path], whole', counts'⟩
      rw [same₂, same₁, same']
  · rintro ⟨b, answer⟩ t ⟨-, done, whole, counts⟩
    rw [List.append_nil] at whole
    exact ⟨k, made, whole ▸ counts⟩

/-- Larger limits and more regions do not change the models. -/
theorem allSat_again (p : Prover) (valid : s.2.Valid) (has : ∀ x ∈ important, s.2.Has x.2.ref)
    (run : (p.allSat important).run s = .ok (.ok answer, t)) (looser : s.1.limits ≤ u.1.limits)
    (later : t.2.Grows u.2) :
    Ensures (p.allSat important) u (p.Exhausts u.1.limits u.2 important) (fun _ _ => False)
      fun again _ => again = answer := by
  obtain ⟨k, made, collected⟩ := (p.allSat_ensures valid has).of_ok run
  obtain ⟨k₁, made₁, counts⟩ := (p.allSat_counts s).of_ok run
  cases made.symm.trans made₁
  have grown := collected.reads.grows.trans later
  have hasU : ∀ x ∈ important, u.2.Has x.2.ref := fun x mem => grown.has (has x mem)
  have decided {path : List Int} (mem : path ∈ k.diagram.paths k.root) :
      ∃ b, k.Decides u.1.limits path b := by
    obtain ⟨b, decides⟩ := collected.decided path mem
    exact ⟨b, decides.persists looser⟩
  have returns := p.allSat_returns later.valid hasU ⟨k, made, fun _ => decided⟩
  apply (returns.and (p.allSat_counts u)).imp
  · rintro again w ⟨⟨k₁, made₁, collected'⟩, k₂, made₂, counts'⟩
    cases made.symm.trans made₁
    cases made.symm.trans made₂
    have count := counts.unique looser counts'
    have region := collected.reads.eq collected'.reads later fun v =>
      exists_congr fun path => and_congr_right fun mem => by
        rw [Skeleton.decides_iff looser (collected.decided path mem), sees_extends grown.nodes valid has]
    cases again
    cases answer
    cases region
    cases count
    rfl
  · exact fun _ _ => And.left

end Prover

/-- An answer that a query has under some limits it has under all larger limits, whatever was counted
before. All models are collected in the same region in the diagram of the first query, and later too unless
the nodes for them are too many. -/
theorem answers_persist {l l' : SolverLimits} (le : l ≤ l') (n n' : QueryCounters) (d : Diagram) :
    (∀ f answer s, (Solver.isUnsat f).run ⟨l, n⟩ = .ok (.ok answer, s) →
      ∃ t, (Solver.isUnsat f).run ⟨l', n'⟩ = .ok (.ok answer, t)) ∧
    (∀ a b answer s, (Solver.implies a b).run ⟨l, n⟩ = .ok (.ok answer, s) →
      ∃ t, (Solver.implies a b).run ⟨l', n'⟩ = .ok (.ok answer, t)) ∧
    (∀ (p : Prover) answer s, p.isUnsat.run ⟨l, n⟩ = .ok (.ok answer, s) →
      ∃ t, p.isUnsat.run ⟨l', n'⟩ = .ok (.ok answer, t)) ∧
    ∀ (p : Prover) important answer s, (p.allSat important).run (⟨l, n⟩, d) = .ok (.ok answer, s) →
      (∃ t, (p.allSat important).run (⟨l', n'⟩, d) = .ok (.ok answer, (t, s.2))) ∧
      (d.Valid → (∀ x ∈ important, d.Has x.2.ref) → ∀ e, s.2.Grows e →
        Ensures (p.allSat important) (⟨l', n'⟩, e) (p.Exhausts l' e important) (fun _ _ => False)
          fun again _ => again = answer) := by
  have looser : Solver.Looser ⟨l, n⟩ ⟨l', n'⟩ := le
  have counted {f : Formula} (g : QueryCounters → QueryCounters) {answer : Bool} {s : Solver}
      (run : (do Solver.count g; Solver.refute f).run ⟨l, n⟩ = .ok (.ok answer, s)) :
      ∃ t, (do Solver.count g; Solver.refute f).run ⟨l', n'⟩ = .ok (.ok answer, t) := by
    have persists := (Solver.count_persists g).bind fun _ => Solver.refute_persists f
    obtain ⟨t, run', -⟩ := persists _ _ _ _ looser run
    exact ⟨t, run'⟩
  refine ⟨fun f answer s => counted _, fun a b answer s => counted _, fun p answer s => counted _, ?_⟩
  intro p important answer s run
  constructor
  · obtain ⟨⟨t, _⟩, run', -, rfl⟩ :=
      p.allSat_persists important (⟨l, n⟩, d) (⟨l', n'⟩, d) answer s ⟨looser, rfl⟩ run
    exact ⟨t, run'⟩
  · exact fun valid has e later => p.allSat_again valid has run looser later

/-! ### Limits that are just enough

The check of a chain `x ≤ y ≤ z` eliminates variables, and a difference that is not 0 is split once. -/

namespace Chain

def closed : Formula := .atom .eq difference (.const 0)

theorem tight_le : tight ≤ {} := ⟨by decide, by decide⟩

/-- A chain that is not closed has a model. -/
def opened : Formula := .conj [firstStep, secondStep, closed.negate]

theorem answered_opened : Solver.Answered tight opened := by
  have forces : Solver.Forces mirrored opened
      [(firstStep, true), (secondStep, true), (closed, false)] :=
    Solver.forces_conj (by cbv) (by cbv) (Skeleton.free_triple (values true) (by decide))
  refine forces.answered (b := true) (by cbv) fun k path known => ?_
  unfold Skeleton.Decides Skeleton.consistent?
  rw [known]
  cbv

theorem not_refuted_opened : ¬ Solver.Refuted tight opened := by
  have words : opened.Within .words := by cbv
  exact Solver.not_refuted (m := ⟨fun x => if x.name = "z" then 1 else 0, fun _ => true⟩)
    Operators.integral_standard words (by decide)

theorem isUnsat_opened : ∃ s, (Solver.isUnsat opened).run ⟨tight, {}⟩ = .ok (.ok false, s) := by
  obtain ⟨answer, s, run, -, decides⟩ :=
    (Solver.isUnsat_returns (s := ⟨tight, {}⟩) answered_opened).exists_run
  obtain rfl : answer = false := by
    rw [Bool.eq_false_iff]
    exact fun yes => not_refuted_opened (decides.mp yes)
  exact ⟨s, run⟩

def named : Prover := ⟨[.prop "p", firstStep, closed.negate]⟩

def namedLiterals : List (Formula × Bool) := [(.prop "p", true), (firstStep, true), (closed, false)]

theorem forces_named : Solver.Forces mirrored named.conjunction namedLiterals :=
  Solver.forces_conj (by cbv) (by cbv)
    (Skeleton.free_triple (fun p first sum => values p first true sum) (by decide))

theorem decides_named (k : Skeleton) (path : List Int) (known : k.literals path = namedLiterals) :
    k.Decides tight path true := by
  unfold Skeleton.Decides Skeleton.consistent?
  rw [known]
  cbv

/-- A path has the name, and nothing else is seen of it. -/
theorem sees_named {k : Skeleton} {path : List Int} {d : Diagram} {r : Region} {v : Valuation}
    (encodes : k.Encodes named.conjunction) (literals : k.literals path = namedLiterals)
    (mem : path ∈ k.diagram.paths k.root) :
    Prover.Sees d k [(.prop "p", r)] path v ↔ d.eval v r.ref = true := by
  rw [Prover.sees_iff encodes mem (by simp), literals]
  simp [namedLiterals, firstStep, closed]

/-- All models of a chain with a name: the name is true. -/
theorem allSat_named {d : Diagram} {r : Region} (valid : d.Valid) (isVariable : r.IsVariable d)
    (few : d.nodes.size ≤ 1) : ∃ answer s,
      (named.allSat [(.prop "p", r)]).run (⟨tight, {}⟩, d) = .ok (.ok answer, s) ∧ answer.region = r := by
  have has : ∀ x ∈ [(Formula.prop "p", r)], d.Has x.2.ref := List.forall_mem_singleton.mpr isVariable.has
  have only : ∀ x ∈ [(Formula.prop "p", r)], Diagram.OnlyOn {d.var r.ref} (d.eval · x.2.ref) :=
    List.forall_mem_singleton.mpr isVariable.onlyOn
  have room (v : Violation) : ¬ named.Exhausts tight d [(.prop "p", r)] v := by
    intro exhausts
    obtain ⟨-, full⟩ := exhausts.short only
    have most : named.room 1 = 96 := by cbv
    rw [Finset.card_singleton, most] at full
    omega
  have answered : Solver.Answered tight named.conjunction := forces_named.answered (by cbv) decides_named
  have returns := named.allSat_returns (s := (⟨tight, {}⟩, d)) valid has answered
  obtain ⟨answer, s, run, k, made, collected⟩ := (returns.weaken room).exists_run
  refine ⟨answer, s, run, ?_⟩
  have encodes := Skeleton.ofFormula_encodes made
  have grown := collected.reads.grows
  have holds : named.conjunction.holds .standard
      ⟨fun x => if x.name = "z" then 1 else 0, fun _ => true⟩ = true := by decide
  obtain ⟨some, memSome, -⟩ := encodes.exists_path holds
  apply (Region.eq_iff grown.valid collected.reads.has (grown.has isVariable.has)).mpr
  intro v
  rw [collected.reads.eval, grown.nodes.eval_valid valid isVariable.has]
  constructor
  · rintro ⟨path, mem, -, sees⟩
    exact (sees_named encodes (forces_named.literals made mem) mem).mp sees
  · intro value
    have literals := forces_named.literals made memSome
    exact ⟨some, memSome, decides_named k some literals, (sees_named encodes literals memSome).mpr value⟩

end Chain

open Chain in
/-- Under small limits a chain has a model, its steps imply the whole, and all models have the name; so it is
under the usual limits. -/
theorem answers_persist_chain : tight ≤ {} ∧
    (∃ s, (Solver.isUnsat opened).run ⟨tight, {}⟩ = .ok (.ok false, s)) ∧
    (∃ t, (Solver.isUnsat opened).run ⟨{}, {}⟩ = .ok (.ok false, t)) ∧
    (∃ s, (Solver.implies steps whole).run ⟨tight, {}⟩ = .ok (.ok true, s)) ∧
    (∃ t, (Solver.implies steps whole).run ⟨{}, {}⟩ = .ok (.ok true, t)) ∧
    ∃ (d : Diagram) (r : Region) (answer : Prover.AllSat) (s : Solver × Diagram) (t : Solver),
      r.IsVariable d ∧
      (named.allSat [(.prop "p", r)]).run (⟨tight, {}⟩, d) = .ok (.ok answer, s) ∧ answer.region = r ∧
      (named.allSat [(.prop "p", r)]).run (⟨{}, {}⟩, d) = .ok (.ok answer, (t, s.2)) := by
  obtain ⟨d, r, valid, isVariable, few⟩ := Registry.exists_variable
  obtain ⟨unsat, implied, -, models⟩ := answers_persist tight_le {} {} d
  obtain ⟨s₁, run₁⟩ := isUnsat_opened
  obtain ⟨s₂, run₂⟩ := implies_whole
  obtain ⟨answer, s₃, run₃, region⟩ := allSat_named valid isVariable few
  obtain ⟨⟨t, again⟩, -⟩ := models named _ answer s₃ run₃
  exact ⟨tight_le, ⟨s₁, run₁⟩, unsat _ _ s₁ run₁, ⟨s₂, run₂⟩, implied _ _ _ s₂ run₂, d, r, answer, s₃, t,
    isVariable, run₃, region, again⟩

end ProgramAnalysis
