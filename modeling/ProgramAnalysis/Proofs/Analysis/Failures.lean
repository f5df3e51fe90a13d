import ProgramAnalysis.Proofs.Analysis.Closure

/-! What is reached after runs some of which failed. A failure leaves the state that was being explored
off the waitlist, with the edges from the failing one on unexplored, and no later run takes it up
again. -/
namespace ProgramAnalysis

namespace Analysis

variable {σ ε π : Type}

/-- Calls of `run` one after another on a reached set, with their outcomes, the latest first. Each has a
limit of its own, and what is shared may be changed in between. -/
inductive Attempts [Located ε] [BEq ε] (a : Analysis σ ε π) (program : Automaton)
    (r : ReachedSet ε π) : List (Except Failure RunReport) → ReachedSet ε π → Prop where
  | none : Attempts a program r [] r
  | again {s t : σ} {limit : Nat} {outcomes : List (Except Failure RunReport)}
    {outcome : Except Failure RunReport} {r' r'' : ReachedSet ε π} :
    Attempts a program r outcomes r' →
    (a.run program limit).run ⟨s, r'⟩ = .ok (outcome, ⟨t, r''⟩) →
    Attempts a program r (outcome :: outcomes) r''

def failures : List (Except Failure RunReport) → Nat
  | [] => 0
  | .ok _ :: rest => failures rest
  | .error _ :: rest => failures rest + 1

/-- As many states as there were failures are cut off. Every reached state is related to one that waits,
whose successors are all reached, or which is cut off. -/
def Explained [Located ε] (a : Analysis σ ε π) (program : Automaton) (le : ε → ε → Prop)
    (empty : ε → Prop) (π₀ : π) (rel : ε → ε → Prop) (failed : Nat) (r : ReachedSet ε π) : Prop :=
  ∃ cut : List ε, cut.length = failed ∧
    (∀ e ∈ cut, CutOff a (edgesFrom program e) le empty π₀ r e) ∧
    Accounted rel (fun f => Followed a program le empty π₀ r f ∨ f ∈ cut) r

variable [Located ε] {a : Analysis σ ε π} {le : ε → ε → Prop} {empty : ε → Prop} {π₀ : π}
  {program : Automaton}

section Runs

variable [BEq ε] (ordered : a.Ordered le empty π₀) {rel : ε → ε → Prop} {sure : Prop}
  (merges : a.Merges le rel π₀ sure) (same : ∀ e, rel e e)
include ordered merges same

theorem Ordered.run_explains {s t : σ} {limit : Nat}
    {outcomes : List (Except Failure RunReport)} {outcome : Except Failure RunReport}
    {r r' : ReachedSet ε π} (yes : sure) (regular : Regular π₀ r)
    (explained : Explained a program le empty π₀ rel (failures outcomes) r)
    (run : (a.run program limit).run ⟨s, r⟩ = .ok (outcome, ⟨t, r'⟩)) :
    Regular π₀ r' ∧ Raises le r r' ∧
      Explained a program le empty π₀ rel (failures (outcome :: outcomes)) r' ∧
      ∀ report, outcome = .ok report → report.incomplete = false → r'.waiting = [] := by
  obtain ⟨cut, count, off, accounted⟩ := explained
  have ensured := ordered.explore_ensures merges same limit (x := ⟨s, r⟩) (c := {})
    (· ∈ cut) regular accounted
  have ensured := Checked.Ensures.of_ok ensured run
  cases outcome with
  | ok report =>
    obtain ⟨regular, raises, accounted, finished⟩ := ensured
    have off e (mem : e ∈ cut) := ordered.cutOff_raises raises (off e mem)
    refine ⟨regular, raises, ⟨cut, count, off, accounted⟩, ?_⟩
    rintro _ ⟨⟩ complete
    exact finished complete
  -- The state at which the call failed is cut off, besides those that were.
  | error f =>
    obtain ⟨regular, raises, e, last, accounted⟩ := ensured yes
    have off d (mem : d ∈ cut) := ordered.cutOff_raises raises (off d mem)
    refine ⟨regular, raises, ⟨e :: cut, ?_, List.forall_mem_cons.mpr ⟨last, off⟩, ?_⟩, nofun⟩
    · rw [List.length_cons, count, failures]
    · apply accounted.mono
      rintro d (followed | mem | rfl)
      · exact .inl followed
      · exact .inr (List.mem_cons_of_mem _ mem)
      · exact .inr List.mem_cons_self

theorem Ordered.attempts_explain {outcomes : List (Except Failure RunReport)} {r r' : ReachedSet ε π}
    (yes : sure) (attempts : Attempts a program r outcomes r') (regular : Regular π₀ r)
    (explained : Explained a program le empty π₀ rel 0 r) :
    Regular π₀ r' ∧ Raises le r r' ∧
      Explained a program le empty π₀ rel (failures outcomes) r' ∧
      ∀ report earlier, outcomes = .ok report :: earlier → report.incomplete = false →
        r'.waiting = [] := by
  induction attempts with
  | none =>
    exact ⟨regular, ordered.raises_of_subset fun _ mem => mem, explained, nofun⟩
  | again _ run ih =>
    obtain ⟨regular, raises, explained, -⟩ := ih
    obtain ⟨regular, more, explained, finished⟩ :=
      ordered.run_explains merges same yes regular explained run
    refine ⟨regular, ordered.raises_trans raises more, explained, ?_⟩
    rintro report _ ⟨⟩ complete
    exact finished report rfl complete

end Runs

/-- However many calls failed, each cut off one state, and every reached state lies below one that
waits, whose successors are all reached, or that was cut off. When merging settles and does not fail,
that holds of every reached state itself. After a call that came to an end nothing waits. -/
theorem explained_of_attempts [BEq ε] [LawfulBEq ε] (ordered : a.Ordered le empty π₀)
    {specialized : Bool} {s t : σ} {r r' : ReachedSet ε π}
    {outcomes : List (Except Failure RunReport)}
    (started : (a.start program specialized π₀).run s = .ok (.ok r, t))
    (attempts : Attempts a program r outcomes r') :
    Raises le r r' ∧
      Explained a program le empty π₀ (Below le) (failures outcomes) r' ∧
      (a.Settles π₀ → (∀ e m, ¬ Fails (a.merge e m π₀)) →
        Explained a program le empty π₀ Eq (failures outcomes) r') ∧
      ∀ report earlier, outcomes = .ok report :: earlier → report.incomplete = false →
        r'.waiting = [] := by
  obtain ⟨e, -, rfl⟩ := start_of_ok started
  have start {rel : ε → ε → Prop} (same : ∀ e, rel e e) :=
    accounted_start same (fun f => Followed a program le empty π₀
      ((ReachedSet.empty specialized).add e π₀) f ∨ f ∈ ([] : List ε)) π₀ specialized e
  obtain ⟨regular, -, waits⟩ := start ordered.below_refl
  obtain ⟨-, raises, below, finished⟩ := ordered.attempts_explain ordered.merges_below
    ordered.below_refl trivial attempts regular ⟨[], rfl, nofun, waits⟩
  refine ⟨raises, below, fun settles never => ?_, finished⟩
  obtain ⟨regular, -, waits⟩ := start fun e => Eq.refl e
  have explained := ordered.attempts_explain (ordered.merges_eq settles) (fun _ => rfl) never attempts
    regular ⟨[], rfl, nofun, waits⟩
  exact explained.2.2.1

/-! ### Successors on a budget -/

/-- Locations where every successor takes one unit of a budget that is shared. -/
def rationed : Analysis Nat LocationState Unit :=
  { (locations : Analysis Nat LocationState Unit) with
    successors := fun l _ edge => do
      match ← get with
      | 0 => throw (.solver .overflow)
      | budget + 1 =>
        set budget
        return l.successors edge }

theorem rationed_successors {l : LocationState} {edge : Edge} {next : List LocationState}
    (gives : Gives (rationed.successors l () edge) next) : next = l.successors edge := by
  obtain ⟨budget, left, run⟩ := gives
  cases budget with
  | zero => cases run
  | succ budget =>
    cases run
    rfl

theorem locations_ordered :
    (locations : Analysis σ LocationState π).Ordered (fun l m => l.le m = true) (fun _ => False) π₀ where
  refl l := by cases l <;> simp [LocationState.le]
  trans {l m n} first second := by
    cases l <;> cases m <;> cases n <;> simp_all [LocationState.le]
  successors gives gives' := (eq_of_gives_pure gives).trans (eq_of_gives_pure gives').symm
  merge gives gives' := (eq_of_gives_pure gives).trans (eq_of_gives_pure gives').symm
  raises {l r m} gives := by
    rw [eq_of_gives_pure gives]
    exact ⟨rfl, by cases r <;> simp [LocationState.le]⟩
  covered {l rs} gives := by
    obtain ⟨s, t, run⟩ := gives
    have kept : Ambient.Keeps (.any σ) (anyOf (fun r => pure (l.le r)) rs) s
        fun b _ => b = true → ∃ r ∈ rs, l.le r = true :=
      Ambient.keeps_anyOf _ trivial fun _ _ _ _ _ => Ambient.keeps_pure trivial id
    exact .inr ((kept.of_ok run).2.2 rfl)

theorem rationed_ordered :
    rationed.Ordered (fun l m => l.le m = true) (fun _ => False) () :=
  { (locations_ordered : (locations : Analysis Nat LocationState Unit).Ordered _ _ ()) with
    successors := fun gives gives' =>
      (rationed_successors gives).trans (rationed_successors gives').symm }

theorem rationed_settles : rationed.Settles () ∧ ∀ e m, ¬ Fails (rationed.merge e m ()) := by
  constructor
  · intro _ r m m' _ again
    exact eq_of_gives_pure again
  · rintro e m ⟨s, f, t, run⟩
    cases run

/-- What is left after a call without a budget and one that has enough of it. -/
def stranded : ReachedSet LocationState Unit where
  specialized := true
  partitions := [(some ⟨0⟩, [(.point ⟨0⟩, ())])]
  waitlist := []
  size := 1

theorem rationed_attempts : Attempts rationed chain ((ReachedSet.empty true).add (.point ⟨0⟩) ())
    [.ok ⟨{}, 1, false⟩, .error (.solver .overflow)] stranded := by
  have failed : (rationed.run chain 5).run ⟨0, (ReachedSet.empty true).add (.point ⟨0⟩) ()⟩ =
      .ok (.error (.solver .overflow), ⟨0, stranded⟩) := rfl
  have finished : (rationed.run chain 5).run ⟨5, stranded⟩ =
      .ok (.ok ⟨{}, 1, false⟩, ⟨5, stranded⟩) := rfl
  exact (Attempts.none.again failed).again finished

/-- The first call fails at the start, the second reports that nothing waits. -/
theorem explained_of_attempts_rationed :
    Explained rationed chain (fun l m => l.le m = true) (fun _ => False) () Eq 1 stranded := by
  have started : (rationed.start chain true ()).run 0 =
      .ok (.ok ((ReachedSet.empty true).add (.point ⟨0⟩) ()), 0) := rfl
  exact (explained_of_attempts rationed_ordered started rationed_attempts).2.2.1
    rationed_settles.1 rationed_settles.2

/-- A call that comes to an end after one that failed may leave the start unexplored. -/
theorem rationed_loses_start :
    rationed.Ordered (fun l m => l.le m = true) (fun _ => False) () ∧
    ∃ (r : ReachedSet LocationState Unit) (report : RunReport) (f : Failure),
      Attempts rationed chain ((ReachedSet.empty true).add (.point ⟨0⟩) ())
        [.ok report, .error f] r ∧
      report.incomplete = false ∧
      ∃ l ∈ r.states, ¬ Followed rationed chain (fun l m => l.le m = true) (fun _ => False) () r l := by
  refine ⟨rationed_ordered, stranded, _, _, rationed_attempts, rfl, .point ⟨0⟩, by decide, ?_⟩
  intro followed
  obtain ⟨-, reaches⟩ := followed ⟨⟨0⟩, ⟨1⟩, .skip⟩ (by decide)
  have next : Gives (rationed.successors (.point ⟨0⟩) () ⟨⟨0⟩, ⟨1⟩, .skip⟩) [.point ⟨1⟩] :=
    ⟨1, 0, rfl⟩
  rcases reaches _ next (.point ⟨1⟩) List.mem_cons_self with nothing | ⟨m, mem, point, -⟩
  · exact nothing
  · have only : ∀ m ∈ stranded.states, Located.point? m ≠ some ⟨1⟩ := by decide
    exact only m mem point

end Analysis

end ProgramAnalysis
