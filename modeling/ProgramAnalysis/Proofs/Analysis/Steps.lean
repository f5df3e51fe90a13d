import Mathlib.Logic.Relation
import ProgramAnalysis.Proofs.Analysis.Closure

/-! Runs of the worklist algorithm in steps. Between two operations a run is what has been reached and a
list of tasks. Each step is one operation, so whatever the operations keep holds at every stage of a run,
also of one that never ends or fails. -/
namespace ProgramAnalysis

open Attempt (Ensures)

namespace Analysis

variable {σ ε π α : Type}

/-- What a run still has to do. -/
inductive Task (ε π : Type) where
  | explore (limit : Nat)
  | follow (e : ε) (p : π) (edge : Edge)
  /-- Merge a successor into the states at its point, then settle it. -/
  | absorb (e : ε) (p : π)
  | merge (e : ε) (p : π) (r : ε)
  /-- Add a successor unless it is covered. -/
  | settle (e : ε) (p : π)

/-- A run between two operations. -/
structure Stage (σ ε π : Type) where
  state : Exploration σ ε π
  /-- The next one first. -/
  tasks : List (Task ε π)

section

variable [Located ε] [BEq ε]

/-- One operation of a run. An operation that fails is no step. -/
inductive Step (a : Analysis σ ε π) (program : Automaton) : Stage σ ε π → Stage σ ε π → Prop
  | limit {x : Exploration σ ε π} {ts : List (Task ε π)} :
      Step a program ⟨x, .explore 0 :: ts⟩ ⟨x, ts⟩
  | done {x : Exploration σ ε π} {ts : List (Task ε π)} {n : Nat} (empty : x.reached.pop? = none) :
      Step a program ⟨x, .explore (n + 1) :: ts⟩ ⟨x, ts⟩
  | take {x : Exploration σ ε π} {ts : List (Task ε π)} {n : Nat} {e : ε} {p : π}
      {rest : ReachedSet ε π} (popped : x.reached.pop? = some ((e, p), rest)) :
      Step a program ⟨x, .explore (n + 1) :: ts⟩
        ⟨⟨x.shared, rest⟩, (edgesFrom program e).map (.follow e p) ++ .explore n :: ts⟩
  | follow {x : Exploration σ ε π} {ts : List (Task ε π)} {e : ε} {p : π} {edge : Edge}
      {next : List ε} {t : σ} (run : (a.successors e p edge).run x.shared = .ok (.ok next, t)) :
      Step a program ⟨x, .follow e p edge :: ts⟩ ⟨⟨t, x.reached⟩, next.map (.absorb · p) ++ ts⟩
  | absorb {x : Exploration σ ε π} {ts : List (Task ε π)} {e : ε} {p : π} :
      Step a program ⟨x, .absorb e p :: ts⟩
        ⟨x, (x.reached.reached e).map (.merge e p) ++ .settle e p :: ts⟩
  | keep {x : Exploration σ ε π} {ts : List (Task ε π)} {e r m : ε} {p : π} {t : σ}
      (run : (a.merge e r p).run x.shared = .ok (.ok m, t)) (same : (m != r) = false) :
      Step a program ⟨x, .merge e p r :: ts⟩ ⟨⟨t, x.reached⟩, ts⟩
  | replace {x : Exploration σ ε π} {ts : List (Task ε π)} {e r m : ε} {p : π} {t : σ}
      {reached : ReachedSet ε π} (run : (a.merge e r p).run x.shared = .ok (.ok m, t))
      (changed : (m != r) = true) (replaced : x.reached.replace r m p = .ok reached) :
      Step a program ⟨x, .merge e p r :: ts⟩ ⟨⟨t, reached⟩, ts⟩
  | covered {x : Exploration σ ε π} {ts : List (Task ε π)} {e : ε} {p : π} {t : σ}
      (run : (a.stop e (x.reached.reached e)).run x.shared = .ok (.ok true, t)) :
      Step a program ⟨x, .settle e p :: ts⟩ ⟨⟨t, x.reached⟩, ts⟩
  | add {x : Exploration σ ε π} {ts : List (Task ε π)} {e : ε} {p : π} {t : σ}
      (run : (a.stop e (x.reached.reached e)).run x.shared = .ok (.ok false, t)) :
      Step a program ⟨x, .settle e p :: ts⟩ ⟨⟨t, x.reached.add e p⟩, ts⟩

/-- The next operation ends the run with a violation. -/
inductive Stage.Breaks (a : Analysis σ ε π) : Stage σ ε π → Violation → Prop
  | follow {x : Exploration σ ε π} {ts : List (Task ε π)} {e : ε} {p : π} {edge : Edge} {v : Violation}
      (run : (a.successors e p edge).run x.shared = .error v) : Breaks a ⟨x, .follow e p edge :: ts⟩ v
  | merge {x : Exploration σ ε π} {ts : List (Task ε π)} {e r : ε} {p : π} {v : Violation}
      (run : (a.merge e r p).run x.shared = .error v) : Breaks a ⟨x, .merge e p r :: ts⟩ v
  | replace {x : Exploration σ ε π} {ts : List (Task ε π)} {e r m : ε} {p : π} {t : σ} {v : Violation}
      (run : (a.merge e r p).run x.shared = .ok (.ok m, t)) (changed : (m != r) = true)
      (replaced : x.reached.replace r m p = .error v) : Breaks a ⟨x, .merge e p r :: ts⟩ v
  | settle {x : Exploration σ ε π} {ts : List (Task ε π)} {e : ε} {p : π} {v : Violation}
      (run : (a.stop e (x.reached.reached e)).run x.shared = .error v) :
      Breaks a ⟨x, .settle e p :: ts⟩ v

/-- The next operation reports a failure. -/
inductive Stage.Fails (a : Analysis σ ε π) : Stage σ ε π → Failure → Prop
  | follow {x : Exploration σ ε π} {ts : List (Task ε π)} {e : ε} {p : π} {edge : Edge} {t : σ}
      {f : Failure} (run : (a.successors e p edge).run x.shared = .ok (.error f, t)) :
      Fails a ⟨x, .follow e p edge :: ts⟩ f
  | merge {x : Exploration σ ε π} {ts : List (Task ε π)} {e r : ε} {p : π} {t : σ} {f : Failure}
      (run : (a.merge e r p).run x.shared = .ok (.error f, t)) : Fails a ⟨x, .merge e p r :: ts⟩ f
  | settle {x : Exploration σ ε π} {ts : List (Task ε π)} {e : ε} {p : π} {t : σ} {f : Failure}
      (run : (a.stop e (x.reached.reached e)).run x.shared = .ok (.error f, t)) :
      Fails a ⟨x, .settle e p :: ts⟩ f

def Steps (a : Analysis σ ε π) (program : Automaton) : Stage σ ε π → Stage σ ε π → Prop :=
  Relation.ReflTransGen (Step a program)

variable {a : Analysis σ ε π} {program : Automaton} {s s' s'' : Stage σ ε π}

/-- There is one way to go on, so the stages from a start on are the beginnings of one run. -/
theorem Step.unique (first : Step a program s s') (second : Step a program s s'') : s' = s'' := by
  -- Two steps for one task differ in the answer of one operation, which there is only one of.
  cases first with
  | limit =>
    cases second
    rfl
  | done empty =>
    cases second with
    | done => rfl
    | take popped => cases empty.symm.trans popped
  | take popped =>
    cases second with
    | done empty => cases popped.symm.trans empty
    | take popped' =>
      cases popped.symm.trans popped'
      rfl
  | follow run =>
    cases second with
    | follow run' =>
      cases run.symm.trans run'
      rfl
  | absorb =>
    cases second
    rfl
  | keep run same =>
    cases second with
    | keep run' =>
      cases run.symm.trans run'
      rfl
    | replace run' changed =>
      cases run.symm.trans run'
      cases same.symm.trans changed
  | replace run changed replaced =>
    cases second with
    | keep run' same =>
      cases run.symm.trans run'
      cases same.symm.trans changed
    | replace run' _ replaced' =>
      cases run.symm.trans run'
      cases replaced.symm.trans replaced'
      rfl
  | covered run =>
    cases second with
    | covered run' =>
      cases run.symm.trans run'
      rfl
    | add run' => cases run.symm.trans run'
  | add run =>
    cases second with
    | covered run' => cases run.symm.trans run'
    | add run' =>
      cases run.symm.trans run'
      rfl

end

theorem mem_edgesFrom [Located ε] {program : Automaton} {e : ε} {x : Point} {edge : Edge}
    (here : Located.point? e = some x) :
    edge ∈ edgesFrom program e ↔ edge ∈ program.edges ∧ edge.source = x := by
  simp only [edgesFrom, here, Automaton.leaving, List.mem_filter, decide_eq_true_eq]

/-! ### What operations keep -/

structure AllGood (good : ε → Prop) (r : ReachedSet ε π) : Prop where
  states : ∀ e ∈ r.states, good e
  waiting : ∀ e ∈ r.waiting, good e

namespace AllGood

variable {good : ε → Prop} {r r' : ReachedSet ε π} {e f : ε} {p : π}

theorem pop (all : AllGood good r) (popped : r.pop? = some ((e, p), r')) :
    good e ∧ AllGood good r' := by
  obtain ⟨waitlist, entries⟩ := ReachedSet.of_pop? popped
  have waiting := all.waiting
  rw [ReachedSet.waiting, waitlist, List.map_cons] at waiting
  obtain ⟨here, rest⟩ := List.forall_mem_cons.mp waiting
  refine ⟨here, ?_, rest⟩
  rw [ReachedSet.states, entries]
  exact all.states

variable [Located ε]

theorem reached (all : AllGood good r) : ∀ f ∈ r.reached e, good f := by
  intro f mem
  obtain ⟨p, here⟩ := ReachedSet.mem_entries_of_mem_reached mem
  exact all.states f (List.mem_map_of_mem here)

theorem add (all : AllGood good r) (new : good e) : AllGood good (r.add e p) := by
  constructor
  · intro f mem
    rcases List.mem_cons.mp ((ReachedSet.states_add r e p).mem_iff.mp mem) with rfl | mem
    · exact new
    · exact all.states f mem
  · intro f mem
    rw [ReachedSet.waiting_add, List.mem_append, List.mem_singleton] at mem
    rcases mem with mem | rfl
    · exact all.waiting f mem
    · exact new

variable [BEq ε]

theorem replace (all : AllGood good r) (new : good f) (replaced : r.replace e f p = .ok r') :
    AllGood good r' := by
  obtain ⟨origin, -, -, waitlist⟩ := ReachedSet.of_replace replaced
  constructor
  · intro g mem
    obtain ⟨x, inside, rfl⟩ := List.mem_map.mp mem
    rcases origin x inside with old | rfl
    · exact all.states x.1 (List.mem_map_of_mem old)
    · exact new
  · intro g mem
    obtain ⟨x, inside, rfl⟩ := List.mem_map.mp mem
    rw [waitlist, List.mem_append, List.mem_singleton] at inside
    rcases inside with old | rfl
    · exact all.waiting x.1 (List.mem_map_of_mem (List.mem_filter.mp old).1)
    · exact new

end AllGood

variable [Located ε] [BEq ε] {a : Analysis σ ε π} {program : Automaton} {s s' s'' : Stage σ ε π}

/-- The operators lead from good states to good states. -/
structure Preserves (a : Analysis σ ε π) (program : Automaton) (good : ε → Prop) : Prop where
  initial : ∀ {e}, Gives (a.initial program.entry) e → good e
  successors : ∀ {e p edge next}, good e → edge ∈ edgesFrom program e →
    Gives (a.successors e p edge) next → ∀ e' ∈ next, good e'
  merge : ∀ {e r p m}, good e → good r → Gives (a.merge e r p) m → good m

def Task.Fits (program : Automaton) (good : ε → Prop) : Task ε π → Prop
  | .explore _ => True
  | .follow e _ edge => good e ∧ edge ∈ edgesFrom program e
  | .absorb e _ | .settle e _ => good e
  | .merge e _ r => good e ∧ good r

/-- What holds at every stage. -/
structure Stage.Good (program : Automaton) (good : ε → Prop) (s : Stage σ ε π) : Prop where
  reached : AllGood good s.state.reached
  tasks : ∀ t ∈ s.tasks, t.Fits program good

theorem Stage.Good.step {good : ε → Prop} (preserves : a.Preserves program good)
    (step : Step a program s s') (holds : s.Good program good) : s'.Good program good := by
  obtain ⟨reached, tasks⟩ := holds
  cases step with
  | limit | done => exact ⟨reached, (List.forall_mem_cons.mp tasks).2⟩
  | take popped =>
    obtain ⟨here, rest⟩ := reached.pop popped
    obtain ⟨-, tasks⟩ := List.forall_mem_cons.mp tasks
    refine ⟨rest, List.forall_mem_append.mpr ⟨?_, List.forall_mem_cons.mpr ⟨trivial, tasks⟩⟩⟩
    exact List.forall_mem_map.mpr fun edge mem => ⟨here, mem⟩
  | follow run =>
    obtain ⟨⟨here, leaves⟩, tasks⟩ := List.forall_mem_cons.mp tasks
    refine ⟨reached, List.forall_mem_append.mpr ⟨?_, tasks⟩⟩
    exact List.forall_mem_map.mpr (preserves.successors here leaves ⟨_, _, run⟩)
  | absorb =>
    obtain ⟨here, rest⟩ := List.forall_mem_cons.mp tasks
    refine ⟨reached, List.forall_mem_append.mpr ⟨?_, List.forall_mem_cons.mpr ⟨here, rest⟩⟩⟩
    exact List.forall_mem_map.mpr fun r mem => ⟨here, reached.reached r mem⟩
  | keep run => exact ⟨reached, (List.forall_mem_cons.mp tasks).2⟩
  | replace run _ replaced =>
    obtain ⟨⟨here, there⟩, tasks⟩ := List.forall_mem_cons.mp tasks
    exact ⟨reached.replace (preserves.merge here there ⟨_, _, run⟩) replaced, tasks⟩
  | covered => exact ⟨reached, (List.forall_mem_cons.mp tasks).2⟩
  | add run =>
    obtain ⟨here, tasks⟩ := List.forall_mem_cons.mp tasks
    exact ⟨reached.add here, tasks⟩

theorem Stage.Good.steps {good : ε → Prop} (preserves : a.Preserves program good)
    (steps : Steps a program s s') (holds : s.Good program good) : s'.Good program good := by
  induction steps with
  | refl => exact holds
  | tail _ step ih => exact ih.step preserves step

theorem Preserves.allGood {good : ε → Prop} (preserves : a.Preserves program good)
    {specialized : Bool} {p : π} {t t' : σ} {r : ReachedSet ε π} {limit : Nat}
    (started : (a.start program specialized p).run t = .ok (.ok r, t'))
    (steps : Steps a program ⟨⟨t', r⟩, [.explore limit]⟩ s) : AllGood good s.state.reached := by
  obtain ⟨e, initial, rfl⟩ := start_of_ok started
  have empty : AllGood good (ReachedSet.empty specialized : ReachedSet ε π) := ⟨nofun, nofun⟩
  have begins : Stage.Good program good
      (⟨⟨t', (ReachedSet.empty specialized).add e p⟩, [.explore limit]⟩ : Stage σ ε π) :=
    ⟨empty.add (preserves.initial ⟨_, _, initial⟩), by simp [Task.Fits]⟩
  exact (begins.steps preserves steps).reached

/-! ### Runs and their stages -/

variable {x : Exploration σ ε π} {ts : List (Task ε π)}

/-- Part of a run goes from one stage to the next. If it fails, it gets to a stage that has reached the same
states. -/
def Passes (a : Analysis σ ε π) (program : Automaton) (act : RunM σ ε π α) (s : Stage σ ε π)
    (next : α → Exploration σ ε π → Stage σ ε π) : Prop :=
  Ensures act s.state (fun _ => True)
    (fun _ y => ∃ s', Steps a program s s' ∧ s'.state.reached = y.reached)
    fun b y => Steps a program s (next b y)

/-- Part of a run goes from one stage to the next, or to a stage whose next operation ends it. -/
def Proceeds (a : Analysis σ ε π) (program : Automaton) (act : RunM σ ε π α) (s : Stage σ ε π)
    (next : α → Exploration σ ε π → Stage σ ε π) : Prop :=
  Ensures act s.state (fun v => ∃ s', Steps a program s s' ∧ s'.Breaks a v)
    (fun f y => ∃ s', Steps a program s s' ∧ s'.Fails a f ∧ s'.state.reached = y.reached)
    fun b y => Steps a program s (next b y)

theorem Proceeds.after {act : RunM σ ε π α} {next : α → Exploration σ ε π → Stage σ ε π}
    (steps : Steps a program s s') (proceeds : Proceeds a program act s' next) :
    Ensures act s'.state (fun v => ∃ s'', Steps a program s s'' ∧ s''.Breaks a v)
      (fun f y => ∃ s'', Steps a program s s'' ∧ s''.Fails a f ∧ s''.state.reached = y.reached)
      fun b y => Steps a program s (next b y) :=
  (proceeds.weaken fun _ ⟨s'', more, breaks⟩ => ⟨s'', steps.trans more, breaks⟩).imp
    (fun _ _ => steps.trans) fun _ _ ⟨s'', more, ends⟩ => ⟨s'', steps.trans more, ends⟩

theorem foldlM_proceeds {f : RunCounters → α → RunM σ ε π RunCounters} {task : α → Task ε π}
    {xs : List α} {c : RunCounters} (each : ∀ {x ts} c y,
      Proceeds a program (f c y) ⟨x, task y :: ts⟩ fun _ z => ⟨z, ts⟩) :
    Proceeds a program (xs.foldlM f c) ⟨x, xs.map task ++ ts⟩ fun _ y => ⟨y, ts⟩ := by
  induction xs generalizing x c with
  | nil => exact .refl
  | cons y ys ih =>
    unfold Proceeds
    rw [List.foldlM_cons, Attempt.ensures_bind]
    exact (each c y).mono fun c z steps => ih.after steps

theorem mergeInto_proceeds (e : ε) (p : π) (rs : List ε) :
    Proceeds a program (mergeInto a e p rs) ⟨x, rs.map (.merge e p) ++ ts⟩ fun _ y => ⟨y, ts⟩ := by
  induction rs generalizing x with
  | nil => exact .refl
  | cons r rs ih =>
    unfold Proceeds
    rw [mergeInto, Attempt.ensures_bind]
    refine (shared_runs.weaken fun v broken => ⟨_, .refl, .merge broken⟩).imp ?_
      fun _ _ found => ⟨_, .refl, .merge found.1, found.2.symm⟩
    rintro m ⟨t, _⟩ ⟨run, rfl⟩
    split
    · rename_i changed
      rw [Attempt.ensures_bind, Attempt.ensures_get, Attempt.ensures_bind,
        Attempt.ensures_ofOutcome_lift]
      refine ⟨fun reached replaced => ?_,
        fun v broken => ⟨_, .refl, .replace run changed broken⟩⟩
      rw [Attempt.ensures_bind, Attempt.ensures_modify, Attempt.ensures_bind]
      exact ih.after (.single (.replace run changed replaced))
    · rename_i same
      exact ih.after (.single (.keep run (Bool.eq_false_iff.mpr same)))

theorem absorb_proceeds (p : π) (c : RunCounters) (e : ε) :
    Proceeds a program (absorb a p c e) ⟨x, .absorb e p :: ts⟩ fun _ y => ⟨y, ts⟩ := by
  unfold Proceeds absorb
  rw [Attempt.ensures_bind, Attempt.ensures_get, Attempt.ensures_bind]
  refine ((mergeInto_proceeds e p _).after (.single .absorb)).mono fun merges y steps => ?_
  rw [Attempt.ensures_bind, Attempt.ensures_get, Attempt.ensures_bind]
  refine (shared_runs.weaken fun v broken => ⟨_, steps, .settle broken⟩).imp ?_
    fun _ _ found => ⟨_, steps, .settle found.1, found.2.symm⟩
  rintro covered ⟨t, _⟩ ⟨run, rfl⟩
  cases covered with
  | true => exact steps.tail (.covered run)
  | false => exact steps.tail (.add run)

theorem follow_proceeds (e : ε) (p : π) (c : RunCounters) (edge : Edge) :
    Proceeds a program (follow a e p c edge) ⟨x, .follow e p edge :: ts⟩ fun _ y => ⟨y, ts⟩ := by
  unfold Proceeds follow
  rw [Attempt.ensures_bind]
  refine (shared_runs.weaken fun v broken => ⟨_, .refl, .follow broken⟩).imp ?_
    fun _ _ found => ⟨_, .refl, .follow found.1, found.2.symm⟩
  rintro next ⟨t, _⟩ ⟨run, rfl⟩
  exact (foldlM_proceeds fun c e => absorb_proceeds p c e).after (.single (.follow run))

theorem explore_proceeds (limit : Nat) (c : RunCounters) :
    Proceeds a program (explore a program limit c) ⟨x, .explore limit :: ts⟩ fun _ y => ⟨y, ts⟩ := by
  induction limit generalizing x c with
  | zero =>
    unfold Proceeds
    rw [explore, Attempt.ensures_bind, Attempt.ensures_get]
    exact .single .limit
  | succ limit ih =>
    unfold Proceeds
    rw [explore, Attempt.ensures_bind, Attempt.ensures_get]
    cases popped : x.reached.pop? with
    | none =>
      simp only [popped]
      exact .single (.done popped)
    | some next =>
      obtain ⟨⟨e, p⟩, rest⟩ := next
      simp only [popped]
      rw [Attempt.ensures_bind, Attempt.ensures_modify, Attempt.ensures_bind]
      have followed : Proceeds a program ((edgesFrom program e).foldlM (fun c edge => follow a e p c edge)
          { c with iterations := c.iterations + 1 })
          ⟨⟨x.shared, rest⟩, (edgesFrom program e).map (.follow e p) ++ .explore limit :: ts⟩
          fun _ y => ⟨y, .explore limit :: ts⟩ :=
        foldlM_proceeds fun c edge => follow_proceeds e p c edge
      exact (followed.after (.single (.take popped))).mono fun c y steps => (ih c).after steps

/-- A run goes through its stages to the last one, where nothing is left to do, or to one whose next
operation ends it. -/
theorem run_proceeds (a : Analysis σ ε π) (program : Automaton) (limit : Nat) :
    Proceeds a program (run a program limit) ⟨x, [.explore limit]⟩ fun _ y => ⟨y, []⟩ :=
  explore_proceeds limit {}

theorem run_passes (a : Analysis σ ε π) (program : Automaton) (limit : Nat) :
    Passes a program (run a program limit) ⟨x, [.explore limit]⟩ fun _ y => ⟨y, []⟩ :=
  ((run_proceeds a program limit).weaken fun _ _ => trivial).imp (fun _ _ => id)
    fun _ _ ⟨s', steps, _, same⟩ => ⟨s', steps, same⟩

/-- A run is incomplete exactly if something still waits when it returns. -/
theorem explore_incomplete (limit : Nat) (c : RunCounters) :
    Ensures (explore a program limit c) x (fun _ => True) (fun _ _ => True) fun report y =>
      report.incomplete = y.reached.hasWaiting := by
  induction limit generalizing x c with
  | zero =>
    rw [explore, Attempt.ensures_bind, Attempt.ensures_get]
    exact rfl
  | succ limit ih =>
    rw [explore, Attempt.ensures_bind, Attempt.ensures_get]
    cases popped : x.reached.pop? with
    | none =>
      simp only [popped]
      rw [Attempt.ensures_pure, ReachedSet.hasWaiting, ReachedSet.waitlist_of_pop?_eq_none popped]
      rfl
    | some next =>
      obtain ⟨⟨e, p⟩, rest⟩ := next
      simp only [popped]
      rw [Attempt.ensures_bind, Attempt.ensures_modify, Attempt.ensures_bind]
      exact (Attempt.ensures_true _ _).mono fun c y _ => ih c

end Analysis

end ProgramAnalysis
