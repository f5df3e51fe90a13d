import ProgramAnalysis.Analysis.Worklist
import ProgramAnalysis.Proofs.Analysis.Ambient
import ProgramAnalysis.Proofs.Analysis.Partitions

/-! Analyses with an order on their states. Operators without side effects and an order that they respect
are all that is asked. What has been reached is only raised while a run goes on. -/
namespace ProgramAnalysis

open Attempt (Ensures)

namespace Analysis

variable {σ ε π α : Type}

def Gives (act : AnalysisM σ α) (b : α) : Prop := ∃ s t, act.run s = .ok (.ok b, t)

def Fails (act : AnalysisM σ α) : Prop := ∃ s f t, act.run s = .ok (.error f, t)

theorem shared_runs {act : AnalysisM σ α} {x : Exploration σ ε π} :
    Ensures (RunM.shared act) x (fun v => act.run x.shared = .error v)
      (fun f y => act.run x.shared = .ok (.error f, y.shared) ∧ y.reached = x.reached) fun b y =>
      act.run x.shared = .ok (.ok b, y.shared) ∧ y.reached = x.reached := by
  unfold RunM.shared
  rw [Attempt.ensures_zoom]
  unfold Ensures
  apply Checked.ensures_of_forall
  · intro b t run
    cases b with
    | error _ => exact ⟨run, rfl⟩
    | ok b => exact ⟨run, rfl⟩
  · exact fun _ broken => broken

theorem shared_gives {act : AnalysisM σ α} {x : Exploration σ ε π} :
    Ensures (RunM.shared act) x (fun _ => True) (fun _ y => Fails act ∧ y.reached = x.reached)
      fun b y => Gives act b ∧ y.reached = x.reached :=
  (shared_runs.weaken fun _ _ => trivial).imp
    (fun _ y ⟨run, same⟩ => ⟨⟨x.shared, y.shared, run⟩, same⟩)
    fun f y ⟨run, same⟩ => ⟨⟨x.shared, f, y.shared, run⟩, same⟩

/-- Every reached state is related to one that waits or is done. -/
def Accounted (rel : ε → ε → Prop) (done : ε → Prop) (r : ReachedSet ε π) : Prop :=
  ∀ e ∈ r.states, ∃ f ∈ r.states, rel e f ∧ (f ∈ r.waiting ∨ done f)

theorem Accounted.mono {rel : ε → ε → Prop} {done done' : ε → Prop} {r : ReachedSet ε π}
    (holds : Accounted rel done r) (more : ∀ e, done e → done' e) : Accounted rel done' r := by
  intro e mem
  obtain ⟨f, mem, related, state⟩ := holds e mem
  exact ⟨f, mem, related, state.imp_right (more f)⟩

theorem Accounted.pop {rel : ε → ε → Prop} {done : ε → Prop} {r rest : ReachedSet ε π} {e : ε}
    (holds : Accounted rel done r) (states : rest.states = r.states)
    (waiting : r.waiting = e :: rest.waiting) : Accounted rel (fun f => done f ∨ f = e) rest := by
  intro f mem
  rw [states] at mem ⊢
  obtain ⟨g, mem, related, state⟩ := holds f mem
  refine ⟨g, mem, related, ?_⟩
  rw [waiting, List.mem_cons] at state
  rcases state with (now | waits) | settled
  · exact .inr (.inr now)
  · exact .inl waits
  · exact .inr (.inl settled)

variable [Located ε]

def Below (le : ε → ε → Prop) (e f : ε) : Prop :=
  Located.point? f = Located.point? e ∧ le e f

/-- Operators that return the same whatever is shared, with an order in which a merge only raises the
reached state and a state is covered only if it is empty or below a state that was reached. That the
test for coverage always answers the same is not needed. -/
structure Ordered (a : Analysis σ ε π) (le : ε → ε → Prop) (empty : ε → Prop) (π₀ : π) : Prop where
  refl : ∀ e, le e e
  trans : ∀ {e f g}, le e f → le f g → le e g
  successors : ∀ {e edge next next'}, Gives (a.successors e π₀ edge) next →
    Gives (a.successors e π₀ edge) next' → next = next'
  merge : ∀ {e r m m'}, Gives (a.merge e r π₀) m → Gives (a.merge e r π₀) m' → m = m'
  raises : ∀ {e r m}, Gives (a.merge e r π₀) m → Below le r m
  covered : ∀ {e rs}, Gives (a.stop e rs) true → empty e ∨ ∃ r ∈ rs, le e r

/-- Merging the same state once more changes nothing. -/
def Settles (a : Analysis σ ε π) (π₀ : π) : Prop :=
  ∀ {e r m m'}, Gives (a.merge e r π₀) m → Gives (a.merge e m π₀) m' → m' = m

variable {a : Analysis σ ε π} {le : ε → ε → Prop} {empty : ε → Prop} {π₀ : π} {program : Automaton}

/-- Nothing is at the state, or a reached state at its point is above it. -/
def Reaches (le : ε → ε → Prop) (empty : ε → Prop) (r : ReachedSet ε π) (e : ε) : Prop :=
  empty e ∨ ∃ f ∈ r.states, Below le e f

/-- The state has successors along the edge, and all of them are reached. -/
def FollowedAlong (a : Analysis σ ε π) (le : ε → ε → Prop) (empty : ε → Prop) (π₀ : π)
    (r : ReachedSet ε π) (e : ε) (edge : Edge) : Prop :=
  (∃ next, Gives (a.successors e π₀ edge) next) ∧
    ∀ next, Gives (a.successors e π₀ edge) next → ∀ f ∈ next, Reaches le empty r f

def Followed (a : Analysis σ ε π) (program : Automaton) (le : ε → ε → Prop) (empty : ε → Prop)
    (π₀ : π) (r : ReachedSet ε π) (e : ε) : Prop :=
  ∀ edge ∈ edgesFrom program e, FollowedAlong a le empty π₀ r e edge

/-- Merging a state into reached ones, or the test for its coverage, may fail. -/
def MayFail (a : Analysis σ ε π) (π₀ : π) (e : ε) : Prop :=
  (∃ r, Fails (a.merge e r π₀)) ∨ ∃ rs, Fails (a.stop e rs)

def MayFailAlong (a : Analysis σ ε π) (π₀ : π) (e : ε) (edge : Edge) : Prop :=
  Fails (a.successors e π₀ edge) ∨
    ∃ next, Gives (a.successors e π₀ edge) next ∧ ∃ f ∈ next, MayFail a π₀ f

/-- The successors of the state are reached along the first of some edges, and the next edge is one
where an operator may fail. -/
def CutOff (a : Analysis σ ε π) (edges : List Edge) (le : ε → ε → Prop) (empty : ε → Prop) (π₀ : π)
    (r : ReachedSet ε π) (e : ε) : Prop :=
  ∃ before edge after, edges = before ++ edge :: after ∧
    (∀ d ∈ before, FollowedAlong a le empty π₀ r e d) ∧ MayFailAlong a π₀ e edge

/-- Nothing that was reached is lost. -/
def Raises (le : ε → ε → Prop) (r r' : ReachedSet ε π) : Prop :=
  ∀ e ∈ r.states, ∃ f ∈ r'.states, Below le e f

/-- The state of a reached set between two operations. -/
structure Regular (π₀ : π) (r : ReachedSet ε π) : Prop where
  divided : r.Partitioned
  precisions : ∀ x ∈ r.waitlist, x.2 = π₀

/-- What part of a run makes of the reached set. -/
structure Carries (le : ε → ε → Prop) (rel : ε → ε → Prop) (π₀ : π) (r r' : ReachedSet ε π) :
    Prop where
  regular : Regular π₀ r'
  raises : Raises le r r'
  accounted : ∀ done, Accounted rel done r → Accounted rel done r'

section Order

variable (ordered : a.Ordered le empty π₀) {r r' r'' : ReachedSet ε π} {rel : ε → ε → Prop}
include ordered

theorem Ordered.below_refl (e : ε) : Below le e e := ⟨rfl, ordered.refl e⟩

theorem Ordered.below_trans {e f g : ε} (first : Below le e f) (second : Below le f g) :
    Below le e g :=
  ⟨second.1.trans first.1, ordered.trans first.2 second.2⟩

theorem Ordered.raises_of_subset (sub : ∀ e ∈ r.states, e ∈ r'.states) : Raises le r r' :=
  fun e mem => ⟨e, sub e mem, ordered.below_refl e⟩

theorem Ordered.raises_trans (first : Raises le r r') (second : Raises le r' r'') :
    Raises le r r'' := by
  intro e mem
  obtain ⟨f, mem, below⟩ := first e mem
  obtain ⟨g, mem, above⟩ := second f mem
  exact ⟨g, mem, ordered.below_trans below above⟩

theorem Ordered.carries_refl (regular : Regular π₀ r) : Carries le rel π₀ r r :=
  ⟨regular, ordered.raises_of_subset fun _ mem => mem, fun _ holds => holds⟩

theorem Ordered.carries_trans (first : Carries le rel π₀ r r')
    (second : Carries le rel π₀ r' r'') : Carries le rel π₀ r r'' :=
  ⟨second.regular, ordered.raises_trans first.raises second.raises,
    fun done holds => second.accounted done (first.accounted done holds)⟩

theorem Ordered.reaches_raises (raises : Raises le r r') {e : ε} (reaches : Reaches le empty r e) :
    Reaches le empty r' e := by
  rcases reaches with nothing | ⟨f, mem, below⟩
  · exact .inl nothing
  · obtain ⟨g, mem, above⟩ := raises f mem
    exact .inr ⟨g, mem, ordered.below_trans below above⟩

theorem Ordered.followedAlong_raises (raises : Raises le r r') {e : ε} {edge : Edge}
    (followed : FollowedAlong a le empty π₀ r e edge) : FollowedAlong a le empty π₀ r' e edge := by
  obtain ⟨defined, reaches⟩ := followed
  exact ⟨defined, fun next gives f mem => ordered.reaches_raises raises (reaches next gives f mem)⟩

theorem Ordered.followed_raises (raises : Raises le r r') {e : ε}
    (followed : Followed a program le empty π₀ r e) : Followed a program le empty π₀ r' e :=
  fun edge mem => ordered.followedAlong_raises raises (followed edge mem)

theorem Ordered.cutOff_raises (raises : Raises le r r') {e : ε} {edges : List Edge}
    (cut : CutOff a edges le empty π₀ r e) : CutOff a edges le empty π₀ r' e := by
  obtain ⟨before, edge, after, split, followed, may⟩ := cut
  exact ⟨before, edge, after, split,
    fun d mem => ordered.followedAlong_raises raises (followed d mem), may⟩

theorem Ordered.carries_add (same : ∀ e, rel e e) (regular : Regular π₀ r) (e : ε) :
    Carries le rel π₀ r (r.add e π₀) := by
  have members : ∀ f, f ∈ (r.add e π₀).states ↔ f = e ∨ f ∈ r.states := fun f => by
    rw [(ReachedSet.states_add r e π₀).mem_iff, List.mem_cons]
  constructor
  · constructor
    · exact regular.divided.add e π₀
    · intro x mem
      rcases List.mem_append.mp mem with mem | mem
      · exact regular.precisions x mem
      · rw [List.mem_singleton.mp mem]
  · exact ordered.raises_of_subset fun f mem => (members f).mpr (.inr mem)
  · intro done holds f mem
    rcases (members f).mp mem with rfl | mem
    · exact ⟨f, (members f).mpr (.inl rfl), same f, .inl (by simp)⟩
    · obtain ⟨g, mem, related, state⟩ := holds f mem
      refine ⟨g, (members g).mpr (.inr mem), related, state.imp_left fun waits => ?_⟩
      rw [ReachedSet.waiting_add]
      exact List.mem_append_left _ waits

end Order

/-! ### The beginning -/

theorem start_of_ok {specialized : Bool} {s t : σ} {r : ReachedSet ε π}
    (started : (a.start program specialized π₀).run s = .ok (.ok r, t)) :
    ∃ e, (a.initial program.entry).run s = .ok (.ok e, t) ∧
      r = (ReachedSet.empty specialized).add e π₀ := by
  have ensured : Ensures (a.start program specialized π₀) s (fun _ => True) (fun _ _ => True)
      fun r t => ∃ e, (a.initial program.entry).run s = .ok (.ok e, t) ∧
        r = (ReachedSet.empty specialized).add e π₀ := by
    unfold start
    rw [Attempt.ensures_bind]
    apply Checked.ensures_of_forall
    · intro e t run
      cases e with
      | error _ => trivial
      | ok e => exact ⟨e, run, rfl⟩
    · exact fun _ _ => trivial
  exact ensured.of_ok started

theorem accounted_start {rel : ε → ε → Prop} (same : ∀ e, rel e e) (done : ε → Prop) (π₀ : π)
    (specialized : Bool) (e : ε) : Regular π₀ ((ReachedSet.empty specialized).add e π₀) ∧
      e ∈ ((ReachedSet.empty specialized).add e π₀).states ∧
      Accounted rel done ((ReachedSet.empty specialized).add e π₀) := by
  have start := ReachedSet.states_add (ReachedSet.empty specialized) e π₀
  have there := start.mem_iff.mpr List.mem_cons_self
  refine ⟨⟨?_, ?_⟩, there, ?_⟩
  · exact (ReachedSet.partitioned_empty specialized).add e π₀
  · intro x mem
    rw [List.mem_singleton.mp mem]
  · intro f mem
    rcases List.mem_cons.mp (start.mem_iff.mp mem) with rfl | mem
    · exact ⟨f, there, same f, .inl (by simp)⟩
    · cases mem

end Analysis

end ProgramAnalysis
