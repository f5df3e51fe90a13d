import ProgramAnalysis.Analysis.Worklist
import ProgramAnalysis.Proofs.Analysis.Ambient
import ProgramAnalysis.Proofs.Analysis.Reached
import ProgramAnalysis.Proofs.Program.Execution

/-! The worklist algorithm is sound for every analysis whose operators are. What carries a run is that
every moment in a reached state either is in a waiting state or has all its successors in reached
states. Replacing a state keeps this since the new state contains the old one and waits. -/
namespace ProgramAnalysis

open Attempt (Ensures)

/-- What the states of an analysis mean: the moments they contain, and which of them belong to a shared
state. -/
structure Reading (σ ε : Type) extends Ambient σ where
  contains : ε → Config → Prop
  good : σ → ε → Prop
  good_mono : ∀ {s t e}, good s e → grows s t → good t e

open Ambient (keeps_pure)

variable {σ ε π : Type} {R : Reading σ ε} {D : Dialect} {program : Automaton} {π₀ : π}
  {a : Analysis σ ε π}

namespace ReachedSet

variable {r r' r'' : ReachedSet ε π} {c : Config}

def Covers (R : Reading σ ε) (r : ReachedSet ε π) (c : Config) : Prop :=
  ∃ x ∈ r.entries, R.contains x.1 c

def Waits (R : Reading σ ε) (r : ReachedSet ε π) (c : Config) : Prop :=
  ∃ x ∈ r.waitlist, R.contains x.1 c

/-- Nothing is lost, and what is new waits. -/
structure Improves (R : Reading σ ε) (r r' : ReachedSet ε π) : Prop where
  covers : ∀ c, r.Covers R c → r'.Covers R c
  waits : ∀ c, r.Waits R c → r'.Waits R c
  new : ∀ c, r'.Covers R c → r.Covers R c ∨ r'.Waits R c

theorem Improves.refl (R : Reading σ ε) (r : ReachedSet ε π) : Improves R r r :=
  ⟨fun _ h => h, fun _ h => h, fun _ h => .inl h⟩

theorem Improves.trans (first : Improves R r r') (second : Improves R r' r'') :
    Improves R r r'' := by
  refine ⟨fun c h => second.covers c (first.covers c h), fun c h => second.waits c (first.waits c h),
    fun c h => ?_⟩
  rcases second.new c h with old | waits
  · exact (first.new c old).imp_right (second.waits c)
  · exact .inr waits

/-- The moments that wait for no step, apart from those along the edges that are pending. -/
def Closed (R : Reading σ ε) (D : Dialect) (program : Automaton) (r : ReachedSet ε π)
    (pending : Config → Edge → Prop) : Prop :=
  ∀ c, r.Covers R c → ¬ r.Waits R c → ∀ edge ∈ program.edges, ¬ pending c edge →
    ∀ c', Config.Follows D edge c c' → r.Covers R c'

theorem Closed.improves {pending : Config → Edge → Prop} (closed : r.Closed R D program pending)
    (improves : Improves R r r') : r'.Closed R D program pending := by
  intro c covers settled edge mem done c' follows
  have old := (improves.new c covers).resolve_right settled
  exact improves.covers c' (closed c old (fun waits => settled (improves.waits c waits)) edge mem
    done c' follows)

/-- All states belong to the shared state, and all that wait have one precision. -/
structure Good (R : Reading σ ε) (π₀ : π) (s : σ) (r : ReachedSet ε π) : Prop where
  entries : ∀ x ∈ r.entries, R.good s x.1
  waiting : ∀ x ∈ r.waitlist, R.good s x.1 ∧ x.2 = π₀

theorem Good.mono {s t : σ} (good : r.Good R π₀ s) (grown : R.grows s t) : r.Good R π₀ t :=
  ⟨fun x mem => R.good_mono (good.entries x mem) grown,
    fun x mem => ⟨R.good_mono (good.waiting x mem).1 grown, (good.waiting x mem).2⟩⟩

variable [Located ε]

theorem Good.reached {s : σ} (good : r.Good R π₀ s) (e : ε) : ∀ f ∈ r.reached e, R.good s f := by
  intro f mem
  obtain ⟨p, here⟩ := mem_entries_of_mem_reached mem
  exact good.entries _ here

theorem covers_of_mem_reached {e f : ε} (mem : f ∈ r.reached e) (contains : R.contains f c) :
    r.Covers R c := by
  obtain ⟨p, here⟩ := mem_entries_of_mem_reached mem
  exact ⟨(f, p), here, contains⟩

theorem Good.add {s : σ} {e : ε} (good : r.Good R π₀ s) (belongs : R.good s e) :
    (r.add e π₀).Good R π₀ s ∧ Improves R r (r.add e π₀) ∧
      ∀ c, R.contains e c → (r.add e π₀).Covers R c := by
  have waitlist : (r.add e π₀).waitlist = r.waitlist ++ [(e, π₀)] := rfl
  refine ⟨⟨fun x mem => ?_, fun x mem => ?_⟩, ⟨?_, ?_, ?_⟩, ?_⟩
  · rcases mem_entries_add.mp mem with mem | rfl
    · exact good.entries x mem
    · exact belongs
  · rw [waitlist, List.mem_append, List.mem_singleton] at mem
    rcases mem with mem | rfl
    · exact good.waiting x mem
    · exact ⟨belongs, rfl⟩
  · rintro c ⟨x, mem, contains⟩
    exact ⟨x, mem_entries_add.mpr (.inl mem), contains⟩
  · rintro c ⟨x, mem, contains⟩
    exact ⟨x, waitlist ▸ List.mem_append_left _ mem, contains⟩
  · rintro c ⟨x, mem, contains⟩
    rcases mem_entries_add.mp mem with mem | rfl
    · exact .inl ⟨x, mem, contains⟩
    · exact .inr ⟨(e, π₀), waitlist ▸ List.mem_append_right _ List.mem_cons_self, contains⟩
  · intro c contains
    exact ⟨(e, π₀), mem_entries_add.mpr (.inr rfl), contains⟩

end ReachedSet

open ReachedSet (Improves)

namespace Exploration

/-- The state of a run between two operations. -/
structure Good (R : Reading σ ε) (π₀ : π) (x : Exploration σ ε π) : Prop where
  valid : R.valid x.shared
  reached : x.reached.Good R π₀ x.shared

/-- What part of a run leaves behind. -/
structure Advances (R : Reading σ ε) (π₀ : π) (x y : Exploration σ ε π) : Prop where
  good : y.Good R π₀
  grown : R.grows x.shared y.shared
  improves : Improves R x.reached y.reached

variable {x y z : Exploration σ ε π}

theorem Advances.refl (good : x.Good R π₀) : Advances R π₀ x x :=
  ⟨good, R.grows_refl _, .refl _ _⟩

theorem Advances.trans (first : Advances R π₀ x y) (second : Advances R π₀ y z) :
    Advances R π₀ x z :=
  ⟨second.good, R.grows_trans first.grown second.grown, first.improves.trans second.improves⟩

end Exploration

namespace Analysis

open Exploration (Advances)

variable {x : Exploration σ ε π}

/-- The successors of every moment in a reached state are in reached states. -/
def Complete (R : Reading σ ε) (D : Dialect) (program : Automaton) (r : ReachedSet ε π) : Prop :=
  ∀ c, r.Covers R c → ∀ edge ∈ program.edges, ∀ c', Config.Follows D edge c c' → r.Covers R c'

theorem complete_of_closed {r : ReachedSet ε π} (closed : r.Closed R D program fun _ _ => False)
    (empty : r.waitlist = []) : Complete R D program r := by
  intro c covers edge mem c' follows
  refine closed c covers (fun waits => ?_) edge mem not_false c' follows
  obtain ⟨w, waiting, -⟩ := waits
  rw [empty] at waiting
  cases waiting

/-- Part of a run advances, and what it leaves satisfies `result`. -/
def Progresses (R : Reading σ ε) (π₀ : π) {α : Type} (act : RunM σ ε π α)
    (x : Exploration σ ε π) (result : α → Exploration σ ε π → Prop) : Prop :=
  Ensures act x (fun _ => True) (fun _ _ => True) fun b y => Advances R π₀ x y ∧ result b y

theorem Progresses.after {α : Type} {act : RunM σ ε π α} {result : α → Exploration σ ε π → Prop}
    {y : Exploration σ ε π} (second : Progresses R π₀ act y result) (first : Advances R π₀ x y) :
    Ensures act y (fun _ => True) (fun _ _ => True) fun b z => Advances R π₀ x z ∧ result b z :=
  second.mono fun _ _ ⟨advances, holds⟩ => ⟨first.trans advances, holds⟩

theorem shared_progresses {α : Type} {act : AnalysisM σ α} {result : α → σ → Prop}
    (good : x.Good R π₀) (keeps : R.Keeps act x.shared result) :
    Progresses R π₀ (RunM.shared act) x fun b y =>
      result b y.shared ∧ y.reached = x.reached := by
  unfold Progresses RunM.shared
  rw [Attempt.ensures_zoom]
  refine keeps.imp (fun b t ⟨valid, grown, holds⟩ => ?_) fun _ _ _ => trivial
  exact ⟨⟨⟨valid, good.reached.mono grown⟩, grown, .refl _ _⟩, holds, rfl⟩

end Analysis

variable [Located ε] [BEq ε]

/-- Operators that lose no moment of an execution. -/
structure Analysis.Sound (a : Analysis σ ε π) (R : Reading σ ε) (D : Dialect)
    (program : Automaton) (π₀ : π) : Prop where
  point : ∀ {s e c}, R.good s e → R.contains e c → Located.point? e = some c.point
  same : ∀ {s e f c}, R.good s e → R.good s f → (e == f) = true → R.contains e c → R.contains f c
  initial : ∀ {s}, R.valid s → R.Keeps (a.initial program.entry) s fun e t =>
    R.good t e ∧ ∀ c, Config.Starts D program c → R.contains e c
  successors : ∀ {s e edge}, R.valid s → R.good s e → edge ∈ program.edges →
    R.Keeps (a.successors e π₀ edge) s fun next t => (∀ e' ∈ next, R.good t e') ∧
      ∀ c c', R.contains e c → Config.Follows D edge c c' → ∃ e' ∈ next, R.contains e' c'
  merge : ∀ {s e r}, R.valid s → R.good s e → R.good s r →
    R.Keeps (a.merge e r π₀) s fun m t => R.good t m ∧ ∀ c, R.contains r c → R.contains m c
  stop : ∀ {s e rs}, R.valid s → R.good s e → (∀ r ∈ rs, R.good s r) →
    R.Keeps (a.stop e rs) s fun answer _ =>
      answer = true → ∀ c, R.contains e c → ∃ r ∈ rs, R.contains r c

namespace ReachedSet

variable {r r' : ReachedSet ε π}

theorem Good.replace {s : σ} {old new : ε} (good : r.Good R π₀ s) (sound : a.Sound R D program π₀)
    (goodOld : R.good s old) (goodNew : R.good s new)
    (larger : ∀ c, R.contains old c → R.contains new c)
    (replaced : r.replace old new π₀ = .ok r') : r'.Good R π₀ s ∧ Improves R r r' := by
  obtain ⟨origin, there, kept, waitlist⟩ := of_replace replaced
  -- What the old state contained is in the new one, also where an equal copy was taken out.
  have swallowed : ∀ x : ε × π, R.good s x.1 → (x.1 == old) = true → ∀ c, R.contains x.1 c →
      R.contains new c :=
    fun x goodX same c contains => larger c (sound.same goodX goodOld same contains)
  have waits : (new, π₀) ∈ r'.waitlist := by
    rw [waitlist]
    exact List.mem_append_right _ List.mem_cons_self
  refine ⟨⟨fun x mem => ?_, fun x mem => ?_⟩, ⟨?_, ?_, ?_⟩⟩
  · rcases origin x mem with mem | rfl
    · exact good.entries x mem
    · exact goodNew
  · rw [waitlist, List.mem_append, List.mem_singleton] at mem
    rcases mem with mem | rfl
    · exact good.waiting x (List.mem_filter.mp mem).1
    · exact ⟨goodNew, rfl⟩
  · rintro c ⟨x, mem, contains⟩
    rcases kept x mem with same | mem'
    · exact ⟨(new, π₀), there, swallowed x (good.entries x mem) same c contains⟩
    · exact ⟨x, mem', contains⟩
  · rintro c ⟨x, mem, contains⟩
    cases same : x.1 == old with
    | true => exact ⟨(new, π₀), waits, swallowed x (good.waiting x mem).1 same c contains⟩
    | false =>
      refine ⟨x, ?_, contains⟩
      rw [waitlist]
      exact List.mem_append_left _ (List.mem_filter.mpr ⟨mem, by simp [bne, same]⟩)
  · rintro c ⟨x, mem, contains⟩
    rcases origin x mem with mem | rfl
    · exact .inl ⟨x, mem, contains⟩
    · exact .inr ⟨(new, π₀), waits, contains⟩

end ReachedSet

namespace Analysis

open Exploration (Advances)

variable {x : Exploration σ ε π}

theorem mergeInto_progresses (sound : a.Sound R D program π₀) {e : ε} {rs : List ε}
    (good : x.Good R π₀) (goodE : R.good x.shared e) (goodRs : ∀ r ∈ rs, R.good x.shared r) :
    Progresses R π₀ (mergeInto a e π₀ rs) x fun _ _ => True := by
  induction rs generalizing x with
  | nil => exact ⟨.refl good, trivial⟩
  | cons r rs ih =>
    obtain ⟨goodR, rest⟩ := List.forall_mem_cons.mp goodRs
    unfold Progresses
    rw [mergeInto, Attempt.ensures_bind]
    refine (shared_progresses good (sound.merge good.valid goodE goodR)).mono ?_
    rintro m y ⟨advances, ⟨goodM, larger⟩, same⟩
    have later : ∀ {z : Exploration σ ε π}, Advances R π₀ x z →
        Progresses R π₀ (mergeInto a e π₀ rs) z fun _ _ => True := fun advances =>
      ih advances.good (R.good_mono goodE advances.grown)
        fun f mem => R.good_mono (rest f mem) advances.grown
    split
    · rw [Attempt.ensures_bind, Attempt.ensures_get, Attempt.ensures_bind]
      rw [Attempt.ensures_ofOutcome_lift]
      refine ⟨fun reached replaced => ?_, fun _ _ => trivial⟩
      obtain ⟨goodReached, improves⟩ := advances.good.reached.replace sound
        (R.good_mono goodR advances.grown) goodM larger replaced
      have next : Advances R π₀ x { y with reached } :=
        advances.trans ⟨⟨advances.good.valid, goodReached⟩, R.grows_refl _, improves⟩
      rw [Attempt.ensures_bind, Attempt.ensures_modify, Attempt.ensures_bind]
      exact (later next).after next
    · exact (later advances).after advances

theorem absorb_progresses (sound : a.Sound R D program π₀) {e : ε} {c : RunCounters}
    (good : x.Good R π₀) (goodE : R.good x.shared e) :
    Progresses R π₀ (absorb a π₀ c e) x fun _ y =>
      ∀ c, R.contains e c → y.reached.Covers R c := by
  unfold Progresses absorb
  rw [Attempt.ensures_bind, Attempt.ensures_get, Attempt.ensures_bind]
  refine (mergeInto_progresses sound good goodE (good.reached.reached e)).mono ?_
  rintro merges y ⟨advances, -⟩
  simp only
  rw [Attempt.ensures_bind, Attempt.ensures_get, Attempt.ensures_bind]
  have goodE' := R.good_mono goodE advances.grown
  refine (shared_progresses advances.good
    (sound.stop advances.good.valid goodE' (advances.good.reached.reached e))).mono ?_
  rintro answer z ⟨advances', stopped, same⟩
  split
  · rename_i yes
    refine ⟨advances.trans advances', fun c contains => ?_⟩
    obtain ⟨r, mem, holds⟩ := stopped yes c contains
    rw [same]
    exact ReachedSet.covers_of_mem_reached mem holds
  · rw [Attempt.ensures_bind, Attempt.ensures_modify]
    obtain ⟨goodReached, improves, covers⟩ :=
      advances'.good.reached.add (R.good_mono goodE' advances'.grown)
    exact ⟨(advances.trans advances').trans
      ⟨⟨advances'.good.valid, goodReached⟩, R.grows_refl _, improves⟩, covers⟩

theorem follow_progresses (sound : a.Sound R D program π₀) {e : ε} {c : RunCounters} {edge : Edge}
    (mem : edge ∈ program.edges) (good : x.Good R π₀) (goodE : R.good x.shared e) :
    Progresses R π₀ (follow a e π₀ c edge) x fun _ y =>
      ∀ c c', R.contains e c → Config.Follows D edge c c' → y.reached.Covers R c' := by
  unfold Progresses follow
  rw [Attempt.ensures_bind]
  refine (shared_progresses good (sound.successors good.valid goodE mem)).mono ?_
  rintro next y ⟨advances, ⟨goodNext, reaches⟩, -⟩
  refine (Attempt.ensures_foldlM (fun rest _ z => Advances R π₀ x z ∧
    (∀ f ∈ rest, R.good z.shared f) ∧
      ∀ f ∈ next, f ∈ rest ∨ ∀ c, R.contains f c → z.reached.Covers R c) ?_ ?_).mono ?_
  · exact ⟨advances, goodNext, fun f mem => .inl mem⟩
  · rintro f rest counters z ⟨advances, goodRest, done⟩
    obtain ⟨goodF, goodRest⟩ := List.forall_mem_cons.mp goodRest
    refine (absorb_progresses sound advances.good goodF).mono ?_
    rintro _ w ⟨advances', covers⟩
    refine ⟨advances.trans advances', fun g mem => R.good_mono (goodRest g mem) advances'.grown,
      fun g mem => ?_⟩
    rcases done g mem with mem | earlier
    · rcases List.mem_cons.mp mem with rfl | mem
      · exact .inr covers
      · exact .inl mem
    · exact .inr fun c contains => advances'.improves.covers c (earlier c contains)
  · rintro _ z ⟨advances, -, done⟩
    refine ⟨advances, fun c c' contains follows => ?_⟩
    obtain ⟨f, mem, holds⟩ := reaches c c' contains follows
    exact (done f mem).resolve_left List.not_mem_nil c' holds

/-! ### Runs -/

theorem follow_all_progresses (sound : a.Sound R D program π₀) {e : ε} {c : RunCounters}
    (edges : List Edge) (mem : ∀ edge ∈ edges, edge ∈ program.edges) (good : x.Good R π₀)
    (goodE : R.good x.shared e)
    (closed : x.reached.Closed R D program fun c _ => R.contains e c) :
    Progresses R π₀ (edges.foldlM (follow a e π₀) c) x fun _ y =>
      y.reached.Closed R D program fun c edge => R.contains e c ∧ edge ∉ edges := by
  -- The invariant of the fold: only along the edges of the rest may successors be missing.
  refine (Attempt.ensures_foldlM (fun rest _ z => (∀ edge ∈ rest, edge ∈ edges) ∧
    Advances R π₀ x z ∧
      z.reached.Closed R D program fun c edge =>
        R.contains e c ∧ (edge ∉ edges ∨ edge ∈ rest)) ?_ ?_).mono ?_
  · refine ⟨fun _ h => h, .refl good, fun c covers settled edge inside done c' follows => ?_⟩
    refine closed c covers settled edge inside (fun contains => done ⟨contains, ?_⟩) c' follows
    exact (Classical.em (edge ∈ edges)).symm
  · rintro edge rest counters z ⟨sub, advances, closed⟩
    have inside := mem edge (sub edge List.mem_cons_self)
    refine (follow_progresses sound inside advances.good
      (R.good_mono goodE advances.grown)).mono ?_
    rintro _ w ⟨advances', covers⟩
    refine ⟨fun edge mem => sub edge (List.mem_cons_of_mem _ mem), advances.trans advances', ?_⟩
    have closed' := closed.improves advances'.improves
    intro c covered settled edge' inside' done c' follows
    by_cases now : edge' = edge ∧ R.contains e c
    · obtain ⟨rfl, contains⟩ := now
      exact covers c c' contains follows
    · refine closed' c covered settled edge' inside' (fun pending => ?_) c' follows
      obtain ⟨contains, missing | mem⟩ := pending
      · exact done ⟨contains, .inl missing⟩
      · rcases List.mem_cons.mp mem with rfl | mem
        · exact now ⟨rfl, contains⟩
        · exact done ⟨contains, .inr mem⟩
  · rintro _ z ⟨-, advances, closed⟩
    refine ⟨advances, fun c covered settled edge inside done c' follows => ?_⟩
    refine closed c covered settled edge inside (fun pending => ?_) c' follows
    obtain ⟨contains, missing | mem⟩ := pending
    · exact done ⟨contains, missing⟩
    · cases mem

/-- Following all edges from a state takes care of every moment in it. -/
theorem Sound.closed_of_followed (sound : a.Sound R D program π₀) {r : ReachedSet ε π} {e : ε}
    {s : σ} (good : R.good s e)
    (closed : r.Closed R D program fun c edge => R.contains e c ∧ edge ∉ edgesFrom program e) :
    r.Closed R D program fun _ _ => False := by
  intro c covers settled edge mem _ c' follows
  refine closed c covers settled edge mem (fun ⟨contains, missing⟩ => missing ?_) c' follows
  rw [edgesFrom, sound.point good contains]
  exact List.mem_filter.mpr ⟨mem, by simpa using follows.source⟩

theorem explore_ensures (sound : a.Sound R D program π₀) (limit : Nat) {c : RunCounters}
    (good : x.Good R π₀) (closed : x.reached.Closed R D program fun _ _ => False) :
    Ensures (explore a program limit c) x (fun _ => True) (fun _ _ => True) fun report y =>
      y.Good R π₀ ∧ (∀ c, x.reached.Covers R c → y.reached.Covers R c) ∧
        (report.incomplete = false → Complete R D program y.reached) := by
  induction limit generalizing x c with
  | zero =>
    rw [explore, Attempt.ensures_bind, Attempt.ensures_get]
    refine ⟨good, fun _ h => h, fun done => complete_of_closed closed ?_⟩
    simpa [ReachedSet.hasWaiting] using done
  | succ limit ih =>
    rw [explore, Attempt.ensures_bind, Attempt.ensures_get]
    cases popped : x.reached.pop? with
    | none =>
      simp only [popped]
      refine ⟨good, fun _ h => h, fun _ => complete_of_closed closed ?_⟩
      exact ReachedSet.waitlist_of_pop?_eq_none popped
    | some next =>
      obtain ⟨⟨e, p⟩, rest⟩ := next
      obtain ⟨waitlist, entries⟩ := ReachedSet.of_pop? popped
      have goodWaiting := good.reached.waiting
      rw [waitlist] at goodWaiting
      obtain ⟨⟨goodE, rfl⟩, goodRest⟩ := List.forall_mem_cons.mp goodWaiting
      have same : ∀ c, rest.Covers R c ↔ x.reached.Covers R c := fun c => by
        unfold ReachedSet.Covers
        rw [entries]
      have goodRest : (⟨x.shared, rest⟩ : Exploration σ ε π).Good R p :=
        ⟨good.valid, ⟨fun y mem => good.reached.entries y (entries ▸ mem), goodRest⟩⟩
      -- The state that was taken waits no longer, so what it contains is left pending.
      have pending : rest.Closed R D program fun c _ => R.contains e c := by
        intro c covers settled edge mem other c' follows
        refine (same c').mpr (closed c ((same c).mp covers) (fun waits => ?_) edge mem not_false
          c' follows)
        obtain ⟨w, mem, contains⟩ := waits
        rw [waitlist] at mem
        rcases List.mem_cons.mp mem with rfl | mem
        · exact other contains
        · exact settled ⟨w, mem, contains⟩
      have inside : ∀ edge ∈ edgesFrom program e, edge ∈ program.edges := by
        intro edge mem
        unfold edgesFrom at mem
        split at mem
        · exact (List.mem_filter.mp mem).1
        · exact mem
      simp only [popped]
      rw [Attempt.ensures_bind, Attempt.ensures_modify, Attempt.ensures_bind]
      refine (follow_all_progresses sound _ inside goodRest goodE pending).mono ?_
      rintro c' y ⟨advances, followed⟩
      refine (ih advances.good (sound.closed_of_followed goodE followed)).mono ?_
      rintro report z ⟨goodZ, covers, complete⟩
      refine ⟨goodZ, fun c covered => covers c ?_, complete⟩
      exact advances.improves.covers c ((same c).mpr covered)

theorem start_ensures (sound : a.Sound R D program π₀) (specialized : Bool) {s : σ}
    (valid : R.valid s) :
    R.Keeps (a.start program specialized π₀) s fun r t =>
      r.Good R π₀ t ∧ (∀ c, Config.Starts D program c → r.Covers R c) ∧
        r.Closed R D program fun _ _ => False := by
  unfold start
  refine (sound.initial valid).bind fun e t valid _ ⟨goodE, starts⟩ => ?_
  have nothing : (ReachedSet.empty specialized : ReachedSet ε π).Good R π₀ t :=
    ⟨fun x mem => (List.not_mem_nil mem).elim, fun x mem => (List.not_mem_nil mem).elim⟩
  obtain ⟨good, improves, covers⟩ := nothing.add goodE
  refine keeps_pure valid ⟨good, fun c start => covers c (starts c start), ?_⟩
  refine ReachedSet.Closed.improves (fun c covers => ?_) improves
  obtain ⟨x, mem, -⟩ := covers
  cases mem

theorem covers_of_reached (sound : a.Sound R D program π₀) {specialized : Bool} {limit : Nat}
    {s t : σ} {r : ReachedSet ε π} {report : RunReport} {y : Exploration σ ε π}
    (valid : R.valid s) (started : (a.start program specialized π₀).run s = .ok (.ok r, t))
    (ran : (a.run program limit).run ⟨t, r⟩ = .ok (.ok report, y))
    (complete : report.incomplete = false) {c : Config} (reached : Config.Reached D program c) :
    y.Good R π₀ ∧ y.reached.Covers R c := by
  obtain ⟨valid', -, good, starts, closed⟩ := (start_ensures sound specialized valid).of_ok started
  obtain ⟨goodY, covers, done⟩ :=
    (explore_ensures sound limit ⟨valid', good⟩ closed).of_ok ran
  refine ⟨goodY, ?_⟩
  induction reached with
  | start begins => exact covers _ (starts _ begins)
  | step before mem follows ih => exact done complete _ ih _ mem _ follows

end Analysis

end ProgramAnalysis
