import Mathlib.Algebra.Order.BigOperators.Group.List
import Mathlib.Algebra.Order.Ring.Nat
import Mathlib.Data.List.Nodup
import ProgramAnalysis.Proofs.Analysis.Specialized
import ProgramAnalysis.Proofs.Analysis.Steps

/-! Analyses that keep one state for each point. What comes to a point is merged into the state that was
reached there, and a merge that changes this state raises its rank. Every state that is ever added is paid
for by a rank, and ranks are bounded, so a run that may take enough states leaves none waiting. -/
namespace ProgramAnalysis

open Attempt (Ensures)

namespace Analysis

variable {σ ε π α : Type}

/-- There is an answer whatever is shared, or one of the failures; a contract is never broken. -/
def Answers (act : AnalysisM σ α) (fails : Failure → Prop) (good : α → Prop) : Prop :=
  ∀ s, Ensures act s (fun _ => False) (fun f _ => fails f) fun a _ => good a

namespace Answers

variable {act : AnalysisM σ α} {fails : Failure → Prop} {good : α → Prop} {s t : σ}

theorem of_ok (answers : Answers act fails good) {b : α} (run : act.run s = .ok (.ok b, t)) : good b :=
  (answers s).of_ok run

theorem of_failure (answers : Answers act fails good) {f : Failure}
    (run : act.run s = .ok (.error f, t)) : fails f := Checked.Ensures.of_ok (answers s) run

theorem not_broken (answers : Answers act fails good) {v : Violation} : act.run s ≠ .error v :=
  fun run => (answers s).of_violation run

theorem anyOf {test : ε → AnalysisM σ Bool} {holds : ε → Bool} {es : List ε}
    (each : ∀ e ∈ es, Answers (test e) fails (· = holds e)) :
    Answers (anyOf test es) fails (· = es.any holds) := by
  induction es with
  | nil => exact fun _ => rfl
  | cons e es ih =>
    intro s
    obtain ⟨here, rest⟩ := List.forall_mem_cons.mp each
    rw [ProgramAnalysis.anyOf, Attempt.ensures_bind]
    refine (here s).mono fun b t answer => ?_
    rw [List.any_cons, ← answer]
    cases b with
    | true => exact rfl
    | false => exact ih rest t

end Answers

/-- States that a run stays with, their order, and their ranks below a bound. -/
structure Ranking (ε : Type) where
  good : ε → Prop
  le : ε → ε → Prop
  rank : ε → Nat
  height : Nat

variable {R : Ranking ε} {program : Automaton}

/-! ### Reached sets with one state for each point -/

theorem length_filter_le_one {κ : Type} [DecidableEq κ] {key : ε → κ} {xs : List ε}
    (once : (xs.map key).Nodup) (k : κ) : (xs.filter fun x => key x = k).length ≤ 1 := by
  have count := List.nodup_iff_count_le_one.mp once k
  rw [List.count, List.countP_map] at count
  rw [← List.countP_eq_length_filter]
  refine le_of_eq_of_le (List.countP_congr fun x _ => ?_) count
  simp

/-- The ranks of the reached states, each state counted once more. -/
def weight (R : Ranking ε) (r : ReachedSet ε π) : Nat := (r.states.map fun e => R.rank e + 1).sum

theorem weight_of_perm {r : ReachedSet ε π} {es : List ε} (perm : r.states.Perm es) :
    weight R r = (es.map fun e => R.rank e + 1).sum := (perm.map _).sum_eq

variable [Located ε] {r r' : ReachedSet ε π} {e f m : ε} {p : π}

theorem weight_add (R : Ranking ε) (r : ReachedSet ε π) (e : ε) (p : π) :
    weight R (r.add e p) = R.rank e + 1 + weight R r := by
  rw [weight_of_perm (ReachedSet.states_add r e p), List.map_cons, List.sum_cons, weight]

/-- The states are good, and no two of them are at one point. -/
structure Single (R : Ranking ε) (r : ReachedSet ε π) : Prop where
  divided : r.Partitioned
  all : AllGood R.good r
  once : (r.states.map Located.point?).Nodup

namespace Single

theorem statesAt_length (single : Single R r) (x : Point) : (r.statesAt x).length ≤ 1 :=
  length_filter_le_one single.once (some x)

theorem near (single : Single R r) :
    ∀ f ∈ r.reached e, R.good f ∧ Located.point? f = Located.point? e := by
  intro f mem
  obtain ⟨inside, point⟩ := single.divided.mem_reached.mp mem
  exact ⟨single.all.states f inside, point⟩

theorem reached_cases (single : Single R r) (e : ε) : r.reached e = [] ∨ ∃ f, r.reached e = [f] := by
  have few := length_filter_le_one single.once (Located.point? e)
  rw [← single.divided.reached_eq e] at few
  cases states : r.reached e with
  | nil => exact .inl rfl
  | cons f rest =>
    rw [states, List.length_cons] at few
    have none : rest = [] := List.length_eq_zero_iff.mp (by omega)
    exact .inr ⟨f, by rw [none]⟩

theorem pop (single : Single R r) (popped : r.pop? = some ((e, p), r')) :
    R.good e ∧ Single R r' ∧ weight R r' = weight R r ∧
      r.waitlist.length = r'.waitlist.length + 1 := by
  obtain ⟨here, rest⟩ := single.all.pop popped
  obtain ⟨divided, states, -⟩ := single.divided.pop popped
  refine ⟨here, ⟨divided, rest, states ▸ single.once⟩, by rw [weight, states, weight], ?_⟩
  rw [(ReachedSet.of_pop? popped).1, List.length_cons]

theorem add (single : Single R r) (new : R.good e) (none : r.reached e = []) :
    Single R (r.add e p) := by
  refine ⟨single.divided.add e p, single.all.add new, ?_⟩
  rw [((ReachedSet.states_add r e p).map _).nodup_iff, List.map_cons, List.nodup_cons]
  refine ⟨fun mem => ?_, single.once⟩
  obtain ⟨f, inside, point⟩ := List.mem_map.mp mem
  have here : f ∈ r.reached e := single.divided.mem_reached.mpr ⟨inside, point⟩
  rw [none] at here
  cases here

end Single

/-! ### What is left to do -/

/-- The tasks while nothing is being merged, before the next of `n` states is taken. -/
inductive Queued (program : Automaton) (R : Ranking ε) (n : Nat) : List (Task ε π) → Prop
  | explore : Queued program R n [.explore n]
  | follow {e : ε} {p : π} {edge : Edge} {ts : List (Task ε π)} (here : R.good e)
      (leaves : edge ∈ edgesFrom program e) (rest : Queued program R n ts) :
      Queued program R n (.follow e p edge :: ts)
  | absorb {e : ε} {p : π} {ts : List (Task ε π)} (here : R.good e) (rest : Queued program R n ts) :
      Queued program R n (.absorb e p :: ts)

/-- The tasks at any time. While a state is settled the state at its point is above it. -/
inductive Planned (program : Automaton) (R : Ranking ε) (r : ReachedSet ε π) (n : Nat) :
    List (Task ε π) → Prop
  | queued {ts : List (Task ε π)} (rest : Queued program R n ts) : Planned program R r n ts
  | merging {e f : ε} {p : π} {ts : List (Task ε π)} (here : R.good e) (only : r.reached e = [f])
      (rest : Queued program R n ts) : Planned program R r n (.merge e p f :: .settle e p :: ts)
  | settling {e : ε} {p : π} {ts : List (Task ε π)} (here : R.good e)
      (above : ∀ f ∈ r.reached e, R.le e f) (rest : Queued program R n ts) :
      Planned program R r n (.settle e p :: ts)

variable {n limit : Nat} {ts : List (Task ε π)}

theorem Queued.follows {edges : List Edge} (here : R.good e)
    (leave : ∀ edge ∈ edges, edge ∈ edgesFrom program e) (rest : Queued program R n ts) :
    Queued program R n (edges.map (.follow e p) ++ ts) := by
  induction edges with
  | nil => exact rest
  | cons edge edges ih =>
    obtain ⟨leaves, others⟩ := List.forall_mem_cons.mp leave
    exact .follow here leaves (ih others)

theorem Queued.absorbs {es : List ε} (good : ∀ e ∈ es, R.good e) (rest : Queued program R n ts) :
    Queued program R n (es.map (.absorb · p) ++ ts) := by
  induction es with
  | nil => exact rest
  | cons e es ih =>
    obtain ⟨here, others⟩ := List.forall_mem_cons.mp good
    exact .absorb here (ih others)

theorem Single.absorb (single : Single R r) (here : R.good e) (rest : Queued program R n ts) :
    Planned program R r n ((r.reached e).map (.merge e p) ++ .settle e p :: ts) := by
  rcases single.reached_cases e with none | ⟨f, only⟩
  · rw [none]
    exact .settling here (by simp [none]) rest
  · rw [only]
    exact .merging here only rest

/-- A stage of a run that may take `limit` states. Each state that was taken or waits is paid for by the
weight of what has been reached; in the end nothing waits if the limit covers all weights. -/
structure Stage.Ranked (program : Automaton) (R : Ranking ε) (limit : Nat) (s : Stage σ ε π) : Prop where
  single : Single R s.state.reached
  tasks : (∃ n, Planned program R s.state.reached n s.tasks ∧
      limit + s.state.reached.waitlist.length ≤ n + weight R s.state.reached) ∨
    s.tasks = [] ∧ (program.points * (R.height + 1) ≤ limit → s.state.reached.waitlist = [])

theorem Stage.Ranked.next {x : Exploration σ ε π} {t : Task ε π}
    (ranked : Stage.Ranked program R limit (⟨x, t :: ts⟩ : Stage σ ε π)) :
    t.Fits program R.good ∧ ∀ e p f, t = .merge e p f → Located.point? f = Located.point? e := by
  obtain ⟨single, ⟨n, planned, -⟩ | ⟨none, -⟩⟩ := ranked
  swap
  · cases none
  cases planned with
  | queued queued =>
    cases queued with
    | explore => exact ⟨trivial, nofun⟩
    | follow here leaves => exact ⟨⟨here, leaves⟩, nofun⟩
    | absorb here => exact ⟨here, nofun⟩
  | merging here only =>
    obtain ⟨there, point⟩ := single.near _ (only ▸ List.mem_cons_self)
    refine ⟨⟨here, there⟩, fun _ _ _ same => ?_⟩
    cases same
    exact point
  | settling here => exact ⟨here, nofun⟩

/-! ### Operators -/

variable [BEq ε]

/-- The operators keep to the good states of a ranking. A merge gives the reached state, if the new state is
below it, or else a state of higher rank above the new one. -/
structure Climbs (a : Analysis σ ε π) (program : Automaton) (R : Ranking ε) (fails : Failure → Prop) :
    Prop where
  located : ∀ {e}, R.good e → ∃ x, Located.point? e = some x ∧ x.id < program.points
  bounded : ∀ {e}, R.good e → R.rank e ≤ R.height
  same : ∀ {e f : ε}, (e == f) = true → Located.point? e = Located.point? f
  self : ∀ {e}, R.good e → (e == e) = true
  initial : Answers (a.initial program.entry) (fun _ => False) R.good
  successors : ∀ {e p edge}, R.good e → edge ∈ edgesFrom program e →
    Answers (a.successors e p edge) fails fun next => ∀ f ∈ next, R.good f
  merge : ∀ {e r p}, R.good e → R.good r → Located.point? r = Located.point? e →
    Answers (a.merge e r p) (fun _ => False) fun m =>
      if m == r then R.le e r
      else R.good m ∧ Located.point? m = Located.point? r ∧ R.le e m ∧ R.rank r < R.rank m
  stop : ∀ {e rs}, R.good e → (∀ r ∈ rs, R.good r ∧ Located.point? r = Located.point? e) →
    Answers (a.stop e rs) (fun _ => False) fun covered => (∃ r ∈ rs, R.le e r) → covered = true

variable {a : Analysis σ ε π} {fails : Failure → Prop}

theorem Climbs.weight_le (climbs : a.Climbs program R fails) (single : Single R r) :
    weight R r ≤ program.points * (R.height + 1) := by
  have inside : r.states.map Located.point? ⊆ (List.range program.points).map fun i => some ⟨i⟩ := by
    intro x mem
    obtain ⟨e, here, rfl⟩ := List.mem_map.mp mem
    obtain ⟨x, point, bound⟩ := climbs.located (single.all.states e here)
    rw [point]
    exact List.mem_map.mpr ⟨x.id, List.mem_range.mpr bound, rfl⟩
  have few := (List.subperm_of_subset single.once inside).length_le
  rw [List.length_map, List.length_map, List.length_range] at few
  have ranks : ∀ k ∈ r.states.map fun e => R.rank e + 1, k ≤ R.height + 1 := by
    intro k mem
    obtain ⟨e, here, rfl⟩ := List.mem_map.mp mem
    exact Nat.succ_le_succ (climbs.bounded (single.all.states e here))
  have total := List.sum_le_card_nsmul _ _ ranks
  rw [List.length_map, nsmul_eq_mul, Nat.cast_id] at total
  exact total.trans (Nat.mul_le_mul_right _ few)

/-- The state that is replaced is the only one at its point, so it is the one that is taken away. -/
theorem Climbs.replace (climbs : a.Climbs program R fails) (single : Single R r) (mem : f ∈ r.states)
    (new : R.good m) (point : Located.point? m = Located.point? f)
    (replaced : r.replace f m p = .ok r') :
    Single R r' ∧ ∃ rest, r.states.Perm (f :: rest) ∧ r'.states.Perm (m :: rest) := by
  have all := single.all.replace new replaced
  rw [ReachedSet.replace_eq r p point.symm] at replaced
  cases replaced
  have removed := single.divided.remove f
  have divided : (r.discard f).Partitioned := ⟨removed.keys, removed.inside⟩
  -- What is removed only equals `f`, but there is no other state at the point of `f`.
  rcases single.divided.remove_cases fun g same => climbs.same same with
    ⟨g, same, perm, -⟩ | ⟨-, missing⟩
  · have inside : g ∈ r.states := perm.mem_iff.mpr List.mem_cons_self
    obtain rfl : g = f := List.inj_on_of_nodup_map single.once inside mem (climbs.same same)
    have states := ReachedSet.states_add (r.discard g) m p
    refine ⟨⟨divided.add m p, all, ?_⟩, _, perm, states⟩
    rw [(states.map _).nodup_iff, List.map_cons, point, ← List.map_cons]
    exact (perm.map _).nodup_iff.mp single.once
  · cases (missing f mem).symm.trans (climbs.self (single.all.states f mem))

/-- A state that is replaced by a higher one pays for one more that waits. -/
theorem Climbs.raise (climbs : a.Climbs program R fails) (single : Single R r) (only : r.reached e = [f])
    (new : R.good m) (point : Located.point? m = Located.point? f) (above : R.le e m)
    (higher : R.rank f < R.rank m) (replaced : r.replace f m p = .ok r') :
    Single R r' ∧ (∀ g ∈ r'.reached e, R.le e g) ∧
      r'.waitlist.length + weight R r ≤ r.waitlist.length + weight R r' := by
  obtain ⟨inside, here⟩ := single.divided.mem_reached.mp (only ▸ List.mem_cons_self)
  obtain ⟨single', others, before, after⟩ := climbs.replace single inside new point replaced
  refine ⟨single', fun g reached => ?_, ?_⟩
  · obtain ⟨among, there⟩ := single'.divided.mem_reached.mp reached
    have added : m ∈ r'.states := after.mem_iff.mpr List.mem_cons_self
    have same : g = m := List.inj_on_of_nodup_map single'.once among added
      (there.trans (here.symm.trans point.symm))
    exact same ▸ above
  · obtain ⟨-, -, -, waitlist⟩ := ReachedSet.of_replace replaced
    have fewer := List.length_filter_le (fun x : ε × π => x.1 != f) r.waitlist
    rw [waitlist, List.length_append, List.length_singleton, weight_of_perm before,
      weight_of_perm after, List.map_cons, List.map_cons, List.sum_cons, List.sum_cons]
    omega

/-! ### Every stage -/

variable {s s' : Stage σ ε π}

theorem Stage.Ranked.step (climbs : a.Climbs program R fails) (step : Step a program s s')
    (ranked : s.Ranked program R limit) : s'.Ranked program R limit := by
  obtain ⟨x, tasks⟩ := s
  obtain ⟨single, ⟨n, planned, paid⟩ | ⟨none, -⟩⟩ := ranked
  swap
  · cases none
    cases step
  replace single : Single R x.reached := single
  replace paid : limit + x.reached.waitlist.length ≤ n + weight R x.reached := paid
  cases planned with
  | queued queued =>
    cases queued with
    | explore =>
      -- No more states than this can have been added, so none waits when a larger limit is used up.
      have most := climbs.weight_le single
      cases step with
      | limit =>
        refine ⟨single, .inr ⟨rfl, fun enough => List.length_eq_zero_iff.mp ?_⟩⟩
        show x.reached.waitlist.length = 0
        omega
      | done empty => exact ⟨single, .inr ⟨rfl, fun _ => ReachedSet.waitlist_of_pop?_eq_none empty⟩⟩
      | take popped =>
        obtain ⟨here, rest, same, shorter⟩ := single.pop popped
        refine ⟨rest, .inl ⟨_, .queued (.follows here (fun _ => id) .explore), ?_⟩⟩
        dsimp only
        omega
    | follow here leaves rest =>
      cases step with
      | follow run =>
        have next := (climbs.successors here leaves).of_ok run
        exact ⟨single, .inl ⟨n, .queued (rest.absorbs next), paid⟩⟩
    | absorb here rest =>
      cases step
      exact ⟨single, .inl ⟨n, single.absorb here rest, paid⟩⟩
  | merging here only rest =>
    rename_i e f p ts
    have mem : f ∈ x.reached.reached e := only ▸ List.mem_cons_self
    obtain ⟨there, point⟩ := single.near f mem
    cases step with
    | keep run same =>
      have below := (climbs.merge here there point).of_ok run
      rw [if_pos (by simpa [bne] using same)] at below
      refine ⟨single, .inl ⟨n, .settling here ?_ rest, paid⟩⟩
      rw [only]
      exact List.forall_mem_singleton.mpr below
    | replace run changed replaced =>
      have merged := (climbs.merge here there point).of_ok run
      rw [if_neg (by simpa [bne] using changed)] at merged
      obtain ⟨good, point', above, higher⟩ := merged
      obtain ⟨single', below, more⟩ := climbs.raise single only good point' above higher replaced
      refine ⟨single', .inl ⟨n, .settling here below rest, ?_⟩⟩
      dsimp only
      omega
  | settling here above rest =>
    rename_i e p ts
    cases step with
    | covered => exact ⟨single, .inl ⟨n, .queued rest, paid⟩⟩
    | add run =>
      have covers := (climbs.stop here single.near).of_ok run
      -- A state reached at the point is above the new one and would have covered it.
      rcases single.reached_cases e with none | ⟨f, only⟩
      · refine ⟨single.add here none, .inl ⟨n, .queued rest, ?_⟩⟩
        rw [weight_add, ReachedSet.add, List.length_append, List.length_singleton]
        omega
      · cases covers ⟨f, only ▸ List.mem_cons_self, above f (only ▸ List.mem_cons_self)⟩

theorem Stage.Ranked.steps (climbs : a.Climbs program R fails) (steps : Steps a program s s')
    (ranked : s.Ranked program R limit) : s'.Ranked program R limit := by
  induction steps with
  | refl => exact ranked
  | tail _ step ih => exact ih.step climbs step

theorem Stage.Ranked.not_breaks (climbs : a.Climbs program R fails) (ranked : s.Ranked program R limit)
    {v : Violation} : ¬ s.Breaks a v := by
  intro breaks
  cases breaks with
  | follow run =>
    obtain ⟨⟨here, leaves⟩, -⟩ := ranked.next
    exact (climbs.successors here leaves).not_broken run
  | merge run =>
    obtain ⟨⟨here, there⟩, point⟩ := ranked.next
    exact (climbs.merge here there (point _ _ _ rfl)).not_broken run
  | replace run changed replaced =>
    obtain ⟨⟨here, there⟩, point⟩ := ranked.next
    have merged := (climbs.merge here there (point _ _ _ rfl)).of_ok run
    rw [if_neg (by simpa [bne] using changed)] at merged
    rw [ReachedSet.replace_eq _ _ merged.2.1.symm] at replaced
    cases replaced
  | settle run =>
    obtain ⟨here, -⟩ := ranked.next
    exact (climbs.stop here ranked.single.near).not_broken run

theorem Stage.Ranked.fails_of_fails (climbs : a.Climbs program R fails) (ranked : s.Ranked program R limit)
    {failure : Failure} (failed : s.Fails a failure) : fails failure := by
  cases failed with
  | follow run =>
    obtain ⟨⟨here, leaves⟩, -⟩ := ranked.next
    exact (climbs.successors here leaves).of_failure run
  | merge run =>
    obtain ⟨⟨here, there⟩, point⟩ := ranked.next
    exact ((climbs.merge here there (point _ _ _ rfl)).of_failure run).elim
  | settle run =>
    obtain ⟨here, -⟩ := ranked.next
    exact ((climbs.stop here ranked.single.near).of_failure run).elim

/-- A run starts with one state, whose weight pays for it. -/
theorem Climbs.starts (climbs : a.Climbs program R fails) (specialized : Bool) (p : π) (t : σ) :
    ∃ r t', (a.start program specialized p).run t = .ok (.ok r, t') ∧ ∀ limit,
      Stage.Ranked program R limit (⟨⟨t', r⟩, [.explore limit]⟩ : Stage σ ε π) := by
  have starts : Ensures (a.start program specialized p) t (fun _ => False) (fun _ _ => False)
      fun r _ => ∃ e, R.good e ∧ r = (ReachedSet.empty specialized).add e p := by
    unfold start
    rw [Attempt.ensures_bind]
    exact (climbs.initial t).mono fun e _ good => ⟨e, good, rfl⟩
  obtain ⟨r, t', run, e, good, rfl⟩ := starts.exists_run
  refine ⟨_, t', run, fun limit => ?_⟩
  have empty : Single R (ReachedSet.empty specialized : ReachedSet ε π) :=
    ⟨ReachedSet.partitioned_empty specialized, ⟨nofun, nofun⟩, List.nodup_nil⟩
  have none : (ReachedSet.empty specialized : ReachedSet ε π).reached e = [] := by
    rw [empty.divided.reached_eq]
    rfl
  refine ⟨empty.add good none, .inl ⟨limit, .queued .explore, ?_⟩⟩
  rw [weight_add, ReachedSet.add, List.length_append, List.length_singleton]
  show limit + (0 + 1) ≤ _
  omega

theorem Climbs.single_of_run (climbs : a.Climbs program R fails) {x y : Exploration σ ε π}
    (ranked : Stage.Ranked program R limit (⟨x, [.explore limit]⟩ : Stage σ ε π))
    {report : Except Failure RunReport} (ran : (a.run program limit).run x = .ok (report, y)) :
    Single R y.reached := by
  have passes : Passes a program (a.run program limit) ⟨x, [.explore limit]⟩ fun _ y => ⟨y, []⟩ :=
    run_passes a program limit
  replace passes := Checked.Ensures.of_ok passes ran
  cases report with
  | ok _ => exact (ranked.steps climbs passes).single
  | error _ =>
    obtain ⟨s, steps, same⟩ := passes
    exact same ▸ (ranked.steps climbs steps).single

/-- If the limit covers all weights a run fails or leaves nothing waiting. -/
theorem Climbs.finishes (climbs : a.Climbs program R fails)
    (enough : program.points * (R.height + 1) ≤ limit) {x : Exploration σ ε π}
    (ranked : Stage.Ranked program R limit (⟨x, [.explore limit]⟩ : Stage σ ε π)) :
    Ensures (a.run program limit) x (fun _ => False) (fun f _ => fails f)
      fun report _ => report.incomplete = false := by
  have stages : Proceeds a program (a.run program limit) ⟨x, [.explore limit]⟩ fun _ y => ⟨y, []⟩ :=
    run_proceeds a program limit
  refine ((stages.and (explore_incomplete limit {})).weaken ?_).imp ?_ ?_
  · rintro v ⟨s, steps, breaks⟩
    exact (ranked.steps climbs steps).not_breaks climbs breaks
  · rintro report y ⟨steps, incomplete⟩
    obtain ⟨-, ⟨n, planned, -⟩ | ⟨-, none⟩⟩ := ranked.steps climbs steps
    · cases planned with
      | queued queued => cases queued
    · rw [incomplete, ReachedSet.hasWaiting, none enough]
      rfl
  · rintro f y ⟨⟨s, steps, failed, -⟩, -⟩
    exact (ranked.steps climbs steps).fails_of_fails climbs failed

end Analysis

end ProgramAnalysis
