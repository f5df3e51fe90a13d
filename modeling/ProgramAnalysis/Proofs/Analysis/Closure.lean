import Mathlib
import ProgramAnalysis.Analysis.Peers
import ProgramAnalysis.Proofs.Analysis.Ordered

/-! What a finished run has explored. A state that has been reached either waits, or is done, or, since it
was replaced when there was more than one copy of it, lies below such a state. -/
namespace ProgramAnalysis

open Attempt (Ensures)

namespace Analysis

variable {σ ε π α : Type} [Located ε] {a : Analysis σ ε π} {le : ε → ε → Prop} {empty : ε → Prop}
  {π₀ : π} {program : Automaton}

/-! ### Merging -/

variable [BEq ε] {x : Exploration σ ε π}

section Merging

variable [LawfulBEq ε]

section Replace

variable {r r' : ReachedSet ε π} {old new : ε}

theorem Regular.replace (regular : Regular π₀ r) (replaced : r.replace old new π₀ = .ok r') :
    Regular π₀ r' := by
  constructor
  · exact (regular.divided.replace replaced).1
  · intro x mem
    obtain ⟨-, -, -, waitlist⟩ := ReachedSet.of_replace replaced
    rw [waitlist] at mem
    rcases List.mem_append.mp mem with mem | mem
    · exact regular.precisions x (List.mem_filter.mp mem).1
    · rw [List.mem_singleton.mp mem]

variable (regular : Regular π₀ r) (replaced : r.replace old new π₀ = .ok r')
include regular replaced

theorem new_of_replace : new ∈ r'.states ∧ new ∈ r'.waiting := by
  obtain ⟨-, states, waiting⟩ := regular.divided.replace replaced
  constructor
  · exact states.mem_iff.mpr List.mem_cons_self
  · rw [waiting]
    exact List.mem_append_right _ List.mem_cons_self

theorem kept_of_replace {e : ε} (other : e ≠ old) :
    (e ∈ r.states → e ∈ r'.states) ∧ (e ∈ r.waiting → e ∈ r'.waiting) := by
  obtain ⟨-, states, waiting⟩ := regular.divided.replace replaced
  constructor
  · intro mem
    exact states.mem_iff.mpr (List.mem_cons_of_mem _ ((List.mem_erase_of_ne other).mpr mem))
  · intro mem
    rw [waiting]
    exact List.mem_append_left _ (List.mem_filter.mpr ⟨mem, by simpa using other⟩)

theorem origin_of_replace {e : ε} (mem : e ∈ r'.states) : e = new ∨ e ∈ r.states := by
  obtain ⟨-, states, -⟩ := regular.divided.replace replaced
  exact (List.mem_cons.mp (states.mem_iff.mp mem)).imp_right List.mem_of_mem_erase

theorem Ordered.raises_replace (ordered : a.Ordered le empty π₀) (below : Below le old new) :
    Raises le r r' := by
  intro e mem
  by_cases same : e = old
  · exact ⟨new, (new_of_replace regular replaced).1, same ▸ below⟩
  · exact ⟨e, (kept_of_replace regular replaced same).1 mem, ordered.below_refl e⟩

theorem Ordered.carries_replace (ordered : a.Ordered le empty π₀) (below : Below le old new) :
    Carries le (Below le) π₀ r r' := by
  obtain ⟨there, waits⟩ := new_of_replace regular replaced
  refine ⟨regular.replace replaced, ordered.raises_replace regular replaced below, ?_⟩
  intro done holds e mem
  rcases origin_of_replace regular replaced mem with rfl | mem
  · exact ⟨e, there, ordered.below_refl e, .inl waits⟩
  · obtain ⟨f, mem, above, state⟩ := holds e mem
    by_cases same : f = old
    · exact ⟨new, there, ordered.below_trans above (same ▸ below), .inl waits⟩
    · obtain ⟨kept, still⟩ := kept_of_replace regular replaced same
      exact ⟨f, kept mem, above, state.imp_left still⟩

end Replace

theorem Ordered.mergeInto_carries (ordered : a.Ordered le empty π₀) (e : ε) (rs : List ε)
    (regular : Regular π₀ x.reached) :
    Ensures (mergeInto a e π₀ rs) x (fun _ => True)
      (fun _ y => Carries le (Below le) π₀ x.reached y.reached ∧ ∃ r, Fails (a.merge e r π₀))
      fun _ y => Carries le (Below le) π₀ x.reached y.reached := by
  induction rs generalizing x with
  | nil => exact ordered.carries_refl regular
  | cons r rs ih =>
    rw [mergeInto, Attempt.ensures_bind]
    refine shared_gives.imp (fun m y ⟨gives, same⟩ => ?_) fun _ y ⟨fails, same⟩ => ?_
    · split
      · rw [Attempt.ensures_bind, Attempt.ensures_get, Attempt.ensures_bind,
          Attempt.ensures_ofOutcome_lift]
        refine ⟨fun reached replaced => ?_, fun _ _ => trivial⟩
        rw [same] at replaced
        have step := ordered.carries_replace regular replaced (ordered.raises gives)
        rw [Attempt.ensures_bind, Attempt.ensures_modify, Attempt.ensures_bind]
        exact (ih step.regular).imp (fun _ z more => ordered.carries_trans step more)
          fun _ z ⟨more, fails⟩ => ⟨ordered.carries_trans step more, fails⟩
      · rw [← same] at regular ⊢
        exact ih regular
    · rw [same]
      exact ⟨ordered.carries_refl regular, r, fails⟩

def Changes (a : Analysis σ ε π) (π₀ : π) (e r : ε) : Prop :=
  Located.point? r = Located.point? e ∧ ∃ m, Gives (a.merge e r π₀) m ∧ m ≠ r

/-- The states that merging changes are reached no more often than they are still to be merged. -/
def Budget (a : Analysis σ ε π) (π₀ : π) (e : ε) (rs : List ε) (r : ReachedSet ε π) : Prop :=
  ∀ f, Changes a π₀ e f → r.states.count f ≤ rs.count f

/-- When merging settles, only the states it has yet to replace may have been left behind: all copies
of a replaced state are in the list, since a new state is not changed again. -/
theorem Ordered.mergeInto_settles (ordered : a.Ordered le empty π₀) (settles : a.Settles π₀) {e : ε}
    {rs : List ε} (done : ε → Prop) (regular : Regular π₀ x.reached)
    (budget : Budget a π₀ e rs x.reached)
    (here : ∀ r ∈ rs, Located.point? r = Located.point? e)
    (accounted : ∀ f ∈ x.reached.states, ¬ Changes a π₀ e f → f ∈ x.reached.waiting ∨ done f) :
    Ensures (mergeInto a e π₀ rs) x (fun _ => True) (fun _ _ => ∃ r, Fails (a.merge e r π₀))
      fun _ y => ∀ f ∈ y.reached.states, f ∈ y.reached.waiting ∨ done f := by
  -- The induction is on the list of states that are merged into. The budget carries it: a state that
  -- merging changes is reached no more often than the rest of the list has it.
  induction rs generalizing x with
  | nil =>
    intro f mem
    by_cases changes : Changes a π₀ e f
    · have none := budget f changes
      rw [List.count_nil, Nat.le_zero] at none
      exact (List.count_eq_zero.mp none mem).elim
    · exact accounted f mem changes
  | cons r rs ih =>
    obtain ⟨point, here⟩ := List.forall_mem_cons.mp here
    rw [mergeInto, Attempt.ensures_bind]
    refine shared_gives.imp (fun m y ⟨gives, same⟩ => ?_) fun _ _ ⟨fails, _⟩ => ⟨r, fails⟩
    split
    · rename_i changed
      rw [Attempt.ensures_bind, Attempt.ensures_get, Attempt.ensures_bind,
        Attempt.ensures_ofOutcome_lift]
      refine ⟨fun reached replaced => ?_, fun _ _ => trivial⟩
      rw [same] at replaced
      have old : Changes a π₀ e r := ⟨point, m, gives, by simpa using changed⟩
      have new : ¬ Changes a π₀ e m := by
        rintro ⟨-, m', again, other⟩
        exact other (settles gives again)
      obtain ⟨-, states, -⟩ := regular.divided.replace replaced
      rw [Attempt.ensures_bind, Attempt.ensures_modify, Attempt.ensures_bind]
      -- The new state is not counted, so replacing takes at most from both sides of the budget.
      refine ih (regular.replace replaced) (fun f changes => ?_) here (fun f mem changes => ?_)
      · have other : m ≠ f := fun eq => new (eq ▸ changes)
        have before := budget f changes
        show reached.states.count f ≤ rs.count f
        rw [states.count_eq, List.count_cons_of_ne other, List.count_erase]
        rw [List.count_cons] at before
        split at before <;> simp_all
      · rcases origin_of_replace regular replaced mem with rfl | mem
        · exact .inl (new_of_replace regular replaced).2
        · have other : f ≠ r := fun eq => changes (eq ▸ old)
          exact (accounted f mem changes).imp_left (kept_of_replace regular replaced other).2
    · rename_i changed
      have unchanged : m = r := by simpa using changed
      rw [← same] at regular budget accounted
      refine ih regular (fun f changes => ?_) here accounted
      have other : r ≠ f := by
        rintro rfl
        obtain ⟨-, m', gives', other⟩ := changes
        exact other ((ordered.merge gives' gives).trans unchanged)
      have before := budget f changes
      rwa [List.count_cons_of_ne other] at before

/-- Merging into the states at the point keeps the states accounted for. Under the condition `sure` it
does so also where it fails. -/
def Merges (a : Analysis σ ε π) (le rel : ε → ε → Prop) (π₀ : π) (sure : Prop) : Prop :=
  ∀ {x : Exploration σ ε π} (e : ε), Regular π₀ x.reached →
    Ensures (mergeInto a e π₀ (x.reached.reached e)) x (fun _ => True)
      (fun _ y => sure → Carries le rel π₀ x.reached y.reached ∧ ∃ r, Fails (a.merge e r π₀))
      fun _ y => Carries le rel π₀ x.reached y.reached

theorem Ordered.merges_below (ordered : a.Ordered le empty π₀) : a.Merges le (Below le) π₀ True :=
  fun e regular => (ordered.mergeInto_carries e _ regular).imp (fun _ _ => id) fun _ _ fails _ => fails

/-- A failure between two copies of a state leaves the second one neither waiting nor done. -/
theorem Ordered.merges_eq (ordered : a.Ordered le empty π₀) (settles : a.Settles π₀) :
    a.Merges le Eq π₀ (∀ e r, ¬ Fails (a.merge e r π₀)) := by
  intro x e regular
  have point : ∀ f ∈ x.reached.reached e, Located.point? f = Located.point? e :=
    fun f mem => (regular.divided.mem_reached.mp mem).2
  -- Merging begins with the whole partition, that is with all copies of every state in it.
  have budget : Budget a π₀ e (x.reached.reached e) x.reached := by
    rintro f ⟨here, -⟩
    have same : (x.reached.reached e).count f = x.reached.states.count f := by
      rw [regular.divided.reached_eq, List.count_filter (by simpa using here)]
    exact Nat.le_of_eq same.symm
  have kept := ordered.mergeInto_settles settles
    (fun f => f ∈ x.reached.states ∧ f ∉ x.reached.waiting) regular budget point
    fun f mem _ => (Classical.em (f ∈ x.reached.waiting)).imp_right fun settled => ⟨mem, settled⟩
  refine ((ordered.mergeInto_carries e (x.reached.reached e) regular).and kept).imp ?_ ?_
  · rintro _ y ⟨carries, kept⟩
    refine ⟨carries.regular, carries.raises, fun done holds f mem => ?_⟩
    rcases kept f mem with waits | ⟨old, settled⟩
    · exact ⟨f, mem, rfl, .inl waits⟩
    · obtain ⟨_, -, rfl, state⟩ := holds f old
      exact ⟨f, mem, rfl, .inr (state.resolve_left settled)⟩
  · rintro _ y ⟨-, r, fails⟩ never
    exact (never e r fails).elim

end Merging

/-! ### Runs -/

section Run

variable (ordered : a.Ordered le empty π₀) {rel : ε → ε → Prop} {sure : Prop}
  (merges : a.Merges le rel π₀ sure) (same : ∀ e, rel e e)
include ordered merges same

theorem Ordered.absorb_carries {e : ε} {c : RunCounters} (regular : Regular π₀ x.reached) :
    Ensures (absorb a π₀ c e) x (fun _ => True)
      (fun _ y => sure → Carries le rel π₀ x.reached y.reached ∧ MayFail a π₀ e) fun _ y =>
      Carries le rel π₀ x.reached y.reached ∧ Reaches le empty y.reached e := by
  unfold absorb
  rw [Attempt.ensures_bind, Attempt.ensures_get, Attempt.ensures_bind]
  refine (merges e regular).imp (fun _ y carries => ?_)
    fun _ _ failed yes => (failed yes).imp_right .inl
  simp only
  rw [Attempt.ensures_bind, Attempt.ensures_get, Attempt.ensures_bind]
  refine shared_gives.imp (fun answer z ⟨gives, unchanged⟩ => ?_) fun _ z ⟨fails, unchanged⟩ _ => ?_
  · rw [← unchanged] at carries
    split
    · rename_i yes
      refine ⟨carries, ?_⟩
      rcases ordered.covered (yes ▸ gives) with nothing | ⟨f, mem, below⟩
      · exact .inl nothing
      · rw [← unchanged] at mem
        obtain ⟨there, point⟩ := carries.regular.divided.mem_reached.mp mem
        exact .inr ⟨f, there, point, below⟩
    · rw [Attempt.ensures_bind, Attempt.ensures_modify]
      constructor
      · exact ordered.carries_trans carries (ordered.carries_add same carries.regular e)
      · have there : e ∈ (z.reached.add e π₀).states :=
          (ReachedSet.states_add z.reached e π₀).mem_iff.mpr List.mem_cons_self
        exact .inr ⟨e, there, ordered.below_refl e⟩
  · rw [unchanged]
    exact ⟨carries, .inr ⟨_, fails⟩⟩

theorem Ordered.follow_carries {e : ε} {c : RunCounters} {edge : Edge}
    (regular : Regular π₀ x.reached) :
    Ensures (follow a e π₀ c edge) x (fun _ => True)
      (fun _ y => sure → Carries le rel π₀ x.reached y.reached ∧ MayFailAlong a π₀ e edge) fun _ y =>
      Carries le rel π₀ x.reached y.reached ∧ FollowedAlong a le empty π₀ y.reached e edge := by
  unfold follow
  rw [Attempt.ensures_bind]
  refine shared_gives.imp (fun next y ⟨gives, unchanged⟩ => ?_) fun _ y ⟨fails, unchanged⟩ _ => ?_
  · rw [← unchanged] at regular ⊢
    -- The invariant of the fold: the successors that are not in the rest of the list are reached.
    refine (Attempt.ensures_foldlM (fun rest _ z => Carries le rel π₀ y.reached z.reached ∧
      (∀ f ∈ rest, f ∈ next) ∧ ∀ f ∈ next, f ∈ rest ∨ Reaches le empty z.reached f) ?_ ?_).mono ?_
    · exact ⟨ordered.carries_refl regular, fun f mem => mem, fun f mem => .inl mem⟩
    · rintro f rest counters z ⟨carries, sub, done⟩
      obtain ⟨mem, sub⟩ := List.forall_mem_cons.mp sub
      refine (ordered.absorb_carries merges same carries.regular).imp ?_ ?_
      · rintro _ w ⟨more, reaches⟩
        refine ⟨ordered.carries_trans carries more, sub, fun g mem => ?_⟩
        rcases done g mem with mem | earlier
        · rcases List.mem_cons.mp mem with rfl | mem
          · exact .inr reaches
          · exact .inl mem
        · exact .inr (ordered.reaches_raises more.raises earlier)
      · intro _ w failed yes
        obtain ⟨more, may⟩ := failed yes
        exact ⟨ordered.carries_trans carries more, .inr ⟨next, gives, f, mem, may⟩⟩
    · rintro _ z ⟨carries, -, done⟩
      refine ⟨carries, ⟨next, gives⟩, fun next' gives' f mem => ?_⟩
      rw [ordered.successors gives' gives] at mem
      exact (done f mem).resolve_left List.not_mem_nil
  · rw [unchanged]
    exact ⟨ordered.carries_refl regular, .inl fails⟩

theorem Ordered.follow_all_carries {e : ε} {c : RunCounters} (edges : List Edge)
    (regular : Regular π₀ x.reached) :
    Ensures (edges.foldlM (follow a e π₀) c) x (fun _ => True)
      (fun _ y => sure → Carries le rel π₀ x.reached y.reached ∧
        CutOff a edges le empty π₀ y.reached e) fun _ y =>
      Carries le rel π₀ x.reached y.reached ∧
        ∀ edge ∈ edges, FollowedAlong a le empty π₀ y.reached e edge := by
  refine (Attempt.ensures_foldlM (fun rest _ y => Carries le rel π₀ x.reached y.reached ∧
    ∃ before, before ++ rest = edges ∧
      ∀ edge ∈ before, FollowedAlong a le empty π₀ y.reached e edge) ?_ ?_).mono ?_
  · exact ⟨ordered.carries_refl regular, [], rfl, nofun⟩
  · rintro edge rest counters y ⟨carries, before, split, done⟩
    refine (ordered.follow_carries merges same carries.regular).imp ?_ ?_
    · rintro _ z ⟨more, followed⟩
      refine ⟨ordered.carries_trans carries more, before ++ [edge], by simp [← split], ?_⟩
      intro d mem
      rcases List.mem_append.mp mem with earlier | now
      · exact ordered.followedAlong_raises more.raises (done d earlier)
      · rwa [List.mem_singleton.mp now]
    · intro _ z failed yes
      obtain ⟨more, may⟩ := failed yes
      exact ⟨ordered.carries_trans carries more, before, edge, rest, split.symm,
        fun d mem => ordered.followedAlong_raises more.raises (done d mem), may⟩
  · rintro _ y ⟨carries, before, rfl, done⟩
    exact ⟨carries, by simpa using done⟩

/-- Between two states that are taken from the waitlist, all that neither wait nor were `cut` off are
done. A failure cuts off one more state. -/
theorem Ordered.explore_ensures (limit : Nat) {c : RunCounters} (cut : ε → Prop)
    (regular : Regular π₀ x.reached)
    (accounted : Accounted rel (fun f => Followed a program le empty π₀ x.reached f ∨ cut f)
      x.reached) :
    Ensures (explore a program limit c) x (fun _ => True)
      (fun _ y => sure → Regular π₀ y.reached ∧ Raises le x.reached y.reached ∧
        ∃ e, CutOff a (edgesFrom program e) le empty π₀ y.reached e ∧
          Accounted rel (fun f => Followed a program le empty π₀ y.reached f ∨ cut f ∨ f = e)
            y.reached) fun report y =>
      Regular π₀ y.reached ∧ Raises le x.reached y.reached ∧
        Accounted rel (fun f => Followed a program le empty π₀ y.reached f ∨ cut f) y.reached ∧
        (report.incomplete = false → y.reached.waiting = []) := by
  have unmoved : Raises le x.reached x.reached := ordered.raises_of_subset fun _ mem => mem
  induction limit generalizing x c with
  | zero =>
    rw [explore, Attempt.ensures_bind, Attempt.ensures_get]
    refine ⟨regular, unmoved, accounted, fun complete => ?_⟩
    simpa [ReachedSet.hasWaiting, ReachedSet.waiting] using complete
  | succ limit ih =>
    rw [explore, Attempt.ensures_bind, Attempt.ensures_get]
    cases popped : x.reached.pop? with
    | none =>
      simp only [popped]
      refine ⟨regular, unmoved, accounted, fun _ => ?_⟩
      exact List.map_eq_nil_iff.mpr (ReachedSet.waitlist_of_pop?_eq_none popped)
    | some next =>
      obtain ⟨⟨e, p⟩, rest⟩ := next
      obtain ⟨divided, states, waiting⟩ := regular.divided.pop popped
      have precisions := regular.precisions
      rw [(ReachedSet.of_pop? popped).1] at precisions
      obtain ⟨rfl, precisions⟩ := List.forall_mem_cons.mp precisions
      -- The state that is explored counts as done until all its edges have been followed.
      have explored := accounted.pop states waiting
      have kept {y : ReachedSet ε π} (carries : Carries le rel p rest y) :
          Raises le x.reached y := fun f mem => carries.raises f (states ▸ mem)
      simp only [popped]
      rw [Attempt.ensures_bind, Attempt.ensures_modify, Attempt.ensures_bind]
      have followed := ordered.follow_all_carries merges same (x := ⟨x.shared, rest⟩)
        (c := { c with iterations := c.iterations + 1 }) (e := e) (edgesFrom program e)
        ⟨divided, precisions⟩
      apply followed.imp
      · rintro c' y ⟨carries, followed⟩
        have raises := kept carries
        have settled : Accounted rel
            (fun f => Followed a program le empty p y.reached f ∨ cut f) y.reached := by
          apply (carries.accounted _ explored).mono
          rintro f ((before | lost) | rfl)
          · exact .inl (ordered.followed_raises raises before)
          · exact .inr lost
          · exact .inl followed
        refine (ih carries.regular settled (ordered.raises_of_subset fun _ mem => mem)).imp ?_ ?_
        · rintro report z ⟨regular, more, rest⟩
          exact ⟨regular, ordered.raises_trans raises more, rest⟩
        · intro _ z failed yes
          obtain ⟨regular, more, rest⟩ := failed yes
          exact ⟨regular, ordered.raises_trans raises more, rest⟩
      · intro _ y failed yes
        obtain ⟨carries, off⟩ := failed yes
        refine ⟨carries.regular, kept carries, e, off, ?_⟩
        apply (carries.accounted _ explored).mono
        rintro f ((before | lost) | last)
        · exact .inl (ordered.followed_raises (kept carries) before)
        · exact .inr (.inl lost)
        · exact .inr (.inr last)

/-- One run after another on a reached set, each with a limit of its own; what is shared may be changed
in between. The report is that of the last run. -/
inductive Runs (a : Analysis σ ε π) (program : Automaton) (r : ReachedSet ε π) :
    RunReport → ReachedSet ε π → Prop where
  | first {s t : σ} {limit : Nat} {report : RunReport} {r' : ReachedSet ε π} :
    (a.run program limit).run ⟨s, r⟩ = .ok (.ok report, ⟨t, r'⟩) → Runs a program r report r'
  | again {s t : σ} {limit : Nat} {earlier report : RunReport} {r' r'' : ReachedSet ε π} :
    Runs a program r earlier r' →
    (a.run program limit).run ⟨s, r'⟩ = .ok (.ok report, ⟨t, r''⟩) → Runs a program r report r''

theorem Ordered.runs_ensure {r r' : ReachedSet ε π} {report : RunReport}
    (runs : Runs a program r report r') (regular : Regular π₀ r)
    (accounted : Accounted rel (Followed a program le empty π₀ r) r) :
    Regular π₀ r' ∧ Raises le r r' ∧ Accounted rel (Followed a program le empty π₀ r') r' ∧
      (report.incomplete = false → r'.waiting = []) := by
  have next {s t : σ} {r r' : ReachedSet ε π} {limit : Nat} {report : RunReport}
      (regular : Regular π₀ r) (accounted : Accounted rel (Followed a program le empty π₀ r) r)
      (run : (a.run program limit).run ⟨s, r⟩ = .ok (.ok report, ⟨t, r'⟩)) :
      Regular π₀ r' ∧ Raises le r r' ∧ Accounted rel (Followed a program le empty π₀ r') r' ∧
        (report.incomplete = false → r'.waiting = []) := by
    simpa using (ordered.explore_ensures merges same _ (fun _ => False) regular
      (by simpa using accounted)).of_ok run
  induction runs with
  | first run => exact next regular accounted run
  | again _ run ih =>
    obtain ⟨regular, raises, accounted, -⟩ := ih
    obtain ⟨regular, more, rest⟩ := next regular accounted run
    exact ⟨regular, ordered.raises_trans raises more, rest⟩

theorem Ordered.followed_of_runs {specialized : Bool} {e : ε} {r : ReachedSet ε π}
    {report : RunReport} (runs : Runs a program ((ReachedSet.empty specialized).add e π₀) report r)
    (complete : report.incomplete = false) :
    (∃ f ∈ r.states, Below le e f) ∧
      ∀ f ∈ r.states, ∃ g ∈ r.states, rel f g ∧ Followed a program le empty π₀ r g := by
  obtain ⟨regular, there, waits⟩ := accounted_start same _ π₀ specialized e
  obtain ⟨-, raises, accounted, finished⟩ := ordered.runs_ensure merges same runs regular waits
  refine ⟨raises e there, fun f mem => ?_⟩
  obtain ⟨g, mem, related, state⟩ := accounted f mem
  rw [finished complete] at state
  exact ⟨g, mem, related, state.resolve_left List.not_mem_nil⟩

end Run

/-- When nothing waits after the last of some runs, the start lies below a reached state, and every
reached state lies below one at its point whose successors are all reached. If merging settles, the
successors of every reached state are. -/
theorem closed_of_runs [LawfulBEq ε] (ordered : a.Ordered le empty π₀) {specialized : Bool} {s t : σ}
    {r r' : ReachedSet ε π} {report : RunReport}
    (started : (a.start program specialized π₀).run s = .ok (.ok r, t))
    (runs : Runs a program r report r') (complete : report.incomplete = false) :
    (∃ e, (a.initial program.entry).run s = .ok (.ok e, t) ∧ ∃ f ∈ r'.states, le e f) ∧
      (∀ e ∈ r'.states, ∃ f ∈ r'.states, Below le e f ∧ Followed a program le empty π₀ r' f) ∧
      (a.Settles π₀ → ∀ e ∈ r'.states, Followed a program le empty π₀ r' e) := by
  obtain ⟨e, initial, rfl⟩ := start_of_ok started
  obtain ⟨⟨f, mem, below⟩, above⟩ :=
    ordered.followed_of_runs ordered.merges_below ordered.below_refl runs complete
  refine ⟨⟨e, initial, f, mem, below.2⟩, above, fun settles g mem => ?_⟩
  have all := (ordered.followed_of_runs (ordered.merges_eq settles) (fun _ => rfl) runs complete).2
  obtain ⟨_, -, rfl, followed⟩ := all g mem
  exact followed

/-! ### Levels -/

theorem eq_of_gives_pure {b c : α} (gives : Gives (σ := σ) (pure b) c) : c = b := by
  obtain ⟨s, t, run⟩ := gives
  cases run
  rfl

def chain : Automaton where
  points := 3
  edges := [⟨⟨0⟩, ⟨1⟩, .skip⟩, ⟨⟨1⟩, ⟨2⟩, .skip⟩]
  entries := .empty
  loopHeads := []
  entry := ⟨0⟩
  edges_inside := by decide

structure Level where
  point : Point
  height : Nat
  deriving DecidableEq

instance : Located Level := ⟨fun l => some l.point⟩

def Level.Le (l m : Level) : Prop := l.point = m.point ∧ l.height ≤ m.height

instance (l m : Level) : Decidable (l.Le m) := inferInstanceAs (Decidable (_ ∧ _))

def leveled (name : String) (after : Level → Edge → List Level) (merge : Level → Level → Level) :
    Analysis Unit Level Unit where
  name := name
  bottom := ⟨⟨0⟩, 0⟩
  top := return ⟨⟨0⟩, 3⟩
  isBottom _ := return false
  le l m := return decide (l.Le m)
  join l m := return ⟨m.point, max l.height m.height⟩
  initial x := return ⟨x, 0⟩
  successors l _ edge := return after l edge
  merge l reached _ := return merge l reached
  covers l m := return decide (l.Le m)

theorem leveled_ordered {name : String} {after : Level → Edge → List Level}
    {merge : Level → Level → Level} (raises : ∀ l r, (merge l r).point = r.point ∧
      r.height ≤ (merge l r).height) :
    (leveled name after merge).Ordered Level.Le (fun _ => False) () where
  refl l := ⟨rfl, Nat.le_refl _⟩
  trans first second := ⟨first.1.trans second.1, Nat.le_trans first.2 second.2⟩
  successors gives gives' := (eq_of_gives_pure gives).trans (eq_of_gives_pure gives').symm
  merge gives gives' := (eq_of_gives_pure gives).trans (eq_of_gives_pure gives').symm
  raises {l r m} gives := by
    obtain ⟨point, height⟩ := raises l r
    rw [eq_of_gives_pure gives]
    exact ⟨congrArg some point, point.symm, height⟩
  covered {l rs} gives := by
    obtain ⟨s, t, run⟩ := gives
    have kept : Ambient.Keeps (.any Unit) (anyOf (fun r => pure (decide (l.Le r))) rs) s
        fun b _ => b = true → ∃ r ∈ rs, l.Le r :=
      Ambient.keeps_anyOf _ trivial fun _ _ _ _ _ => Ambient.keeps_pure trivial of_decide_eq_true
    exact .inr ((kept.of_ok run).2.2 rfl)

/-- Three heights are found at point 1, and every height there leads on. -/
def Level.spread (l : Level) (edge : Edge) : List Level :=
  if edge.target = ⟨1⟩ then [⟨⟨1⟩, 0⟩, ⟨⟨1⟩, 1⟩, ⟨⟨1⟩, 3⟩] else [⟨edge.target, l.height⟩]

def Level.lift (l reached : Level) : Level := { reached with height := max l.height reached.height }

def lifting : Analysis Unit Level Unit := leveled "lifting" Level.spread Level.lift

theorem lifting_ordered : lifting.Ordered Level.Le (fun _ => False) () :=
  leveled_ordered fun _ _ => ⟨rfl, Nat.le_max_right _ _⟩

theorem lifting_settles : lifting.Settles () := by
  intro l r m m' gives gives'
  rw [eq_of_gives_pure gives', eq_of_gives_pure gives]
  simp only [Level.lift, Level.mk.injEq, true_and]
  omega

/-- Two runs, the first of which stops at its limit. There the heights found at point 1 are merged into the
first of them, which is replaced twice before it leads on. -/
theorem closed_of_runs_lifting :
    ∃ (r r' : ReachedSet Level Unit) (stopped report : RunReport),
      (lifting.run chain 1).run ⟨(), (ReachedSet.empty true).add ⟨⟨0⟩, 0⟩ ()⟩ =
        .ok (.ok stopped, ⟨(), r⟩) ∧
      stopped.counters.merges = 2 ∧ stopped.incomplete = true ∧
      Runs lifting chain ((ReachedSet.empty true).add ⟨⟨0⟩, 0⟩ ()) report r' ∧
      report.incomplete = false ∧ r'.states = [⟨⟨0⟩, 0⟩, ⟨⟨1⟩, 3⟩, ⟨⟨2⟩, 3⟩] ∧
      ∀ e ∈ r'.states, Followed lifting chain Level.Le (fun _ => False) () r' e := by
  let r₀ : ReachedSet Level Unit := (ReachedSet.empty true).add ⟨⟨0⟩, 0⟩ ()
  let r₁ : ReachedSet Level Unit := { r₀ with
    partitions := [(some ⟨0⟩, [(⟨⟨0⟩, 0⟩, ())]), (some ⟨1⟩, [(⟨⟨1⟩, 3⟩, ())])]
    waitlist := [(⟨⟨1⟩, 3⟩, ())]
    size := 2 }
  let r₂ : ReachedSet Level Unit := { r₀ with
    partitions := [(some ⟨0⟩, [(⟨⟨0⟩, 0⟩, ())]), (some ⟨1⟩, [(⟨⟨1⟩, 3⟩, ())]),
      (some ⟨2⟩, [(⟨⟨2⟩, 3⟩, ())])]
    waitlist := []
    size := 3 }
  have first : (lifting.run chain 1).run ⟨(), r₀⟩ = .ok (.ok ⟨⟨1, 3, 2, 2⟩, 2, true⟩, ⟨(), r₁⟩) := by cbv
  have again : (lifting.run chain 5).run ⟨(), r₁⟩ = .ok (.ok ⟨⟨2, 1, 0, 0⟩, 3, false⟩, ⟨(), r₂⟩) := by cbv
  have ran := (Runs.first first).again again
  have started : (lifting.start chain true ()).run () = .ok (.ok r₀, ()) := rfl
  exact ⟨r₁, r₂, _, _, first, rfl, rfl, ran, rfl, rfl,
    (closed_of_runs lifting_ordered started ran rfl).2.2 lifting_settles⟩

/-! ### Merging in steps -/

/-- Three heights are found at point 1; only the second of them leads on. -/
def Level.after (l : Level) (edge : Edge) : List Level :=
  if edge.target = ⟨1⟩ then [⟨⟨1⟩, 0⟩, ⟨⟨1⟩, 1⟩, ⟨⟨1⟩, 3⟩]
  else if l.height = 1 then [⟨edge.target, 0⟩]
  else []

/-- A state that is well above a reached one raises it by one. -/
def Level.raise (l reached : Level) : Level :=
  if reached.height + 2 ≤ l.height then { reached with height := reached.height + 1 } else reached

def rising : Analysis Unit Level Unit := leveled "rising" Level.after Level.raise

theorem rising_ordered : rising.Ordered Level.Le (fun _ => False) () :=
  leveled_ordered fun l r => by
    unfold Level.raise
    split
    · exact ⟨rfl, Nat.le_succ _⟩
    · exact ⟨rfl, Nat.le_refl _⟩

/-- Without settling, a finished run may leave a reached state behind that was never explored: the
height 0 is raised to 1, of which there are then two copies, and raising 1 takes away one of them but
lets neither wait. -/
theorem rising_leaves_behind :
    rising.Ordered Level.Le (fun _ => False) () ∧
    ∃ (r' : ReachedSet Level Unit) (report : RunReport),
      (rising.start chain true ()).run () =
        .ok (.ok ((ReachedSet.empty true).add ⟨⟨0⟩, 0⟩ ()), ()) ∧
      Runs rising chain ((ReachedSet.empty true).add ⟨⟨0⟩, 0⟩ ()) report r' ∧
      report.incomplete = false ∧
      ∃ l ∈ r'.states, ¬ Followed rising chain Level.Le (fun _ => False) () r' l := by
  have finished : (match (rising.run chain 5).run
        ⟨(), (ReachedSet.empty true).add ⟨⟨0⟩, 0⟩ ()⟩ with
      | .ok (.ok report, y) => !report.incomplete &&
          y.reached.states == [⟨⟨0⟩, 0⟩, ⟨⟨1⟩, 1⟩, ⟨⟨1⟩, 2⟩, ⟨⟨1⟩, 3⟩]
      | _ => false) = true := by decide +kernel
  split at finished
  · rename_i report y ran
    obtain ⟨complete, states⟩ := Bool.and_eq_true_iff.mp finished
    have complete : report.incomplete = false := by simpa using complete
    have states := eq_of_beq states
    refine ⟨rising_ordered, y.reached, report, rfl, .first ran, complete, ⟨⟨1⟩, 1⟩, ?_, ?_⟩
    · rw [states]
      decide
    · intro followed
      have reaches := (followed ⟨⟨1⟩, ⟨2⟩, .skip⟩ (by decide)).2 [⟨⟨2⟩, 0⟩] ⟨(), (), rfl⟩ ⟨⟨2⟩, 0⟩
        List.mem_cons_self
      have missing : ∀ f ∈ y.reached.states, Located.point? f ≠ some ⟨2⟩ := by
        rw [states]
        decide
      rcases reaches with nothing | ⟨f, mem, point, -⟩
      · exact nothing
      · exact missing f mem point
  · cases finished

end Analysis

end ProgramAnalysis
