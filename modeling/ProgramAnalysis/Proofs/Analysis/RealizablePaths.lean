import ProgramAnalysis.Proofs.Analysis.Parts
import ProgramAnalysis.Proofs.Analysis.Steps

/-! Composite analyses explore realizable paths only: paths on which every return goes back to the caller.
The call stack of a state holds the calls that are pending on such a path. Merging keeps the point and the
stack of the reached state, and so its path; no other component of a state has any influence on them. -/
namespace ProgramAnalysis

open Attempt (Ensures)

/-! ### Paths -/

inductive Automaton.Path (program : Automaton) (x : Point) : List Edge → Point → Prop
  | nil : Path program x [] x
  | snoc {path : List Edge} {edge : Edge} (before : Path program x path edge.source)
      (mem : edge ∈ program.edges) : Path program x (path ++ [edge]) edge.target

def Action.IsLocal : Action → Prop
  | .call .. | .resume .. => False
  | _ => True

/-- The calls that are pending after a path, the innermost last. A path goes on with a return only where
function and call site are those of the innermost call. -/
inductive Pending : List Edge → List Frame → Prop
  | start : Pending [] []
  | enter {path : List Edge} {calls : List Frame} {edge : Edge} {f : String} {args : List Expr}
      {params : List String} {site : Point} (before : Pending path calls)
      (action : edge.action = .call f args params site) :
      Pending (path ++ [edge]) (calls ++ [⟨f, site⟩])
  | leave {path : List Edge} {calls : List Frame} {edge : Edge} {f : String} {site : Point}
      {target : Option Expr} (before : Pending path (calls ++ [⟨f, site⟩]))
      (action : edge.action = .resume f site target) : Pending (path ++ [edge]) calls
  | stay {path : List Edge} {calls : List Frame} {edge : Edge} (before : Pending path calls)
      (action : edge.action.IsLocal) : Pending (path ++ [edge]) calls

/-- Some path from the entry to the point matches its returns and leaves the given calls pending. -/
def Automaton.Realizable (program : Automaton) (n : Point) (calls : List Frame) : Prop :=
  ∃ path, program.Path program.entry path n ∧ Pending path calls

variable {program : Automaton} {edge : Edge}

theorem Automaton.realizable_entry (program : Automaton) : program.Realizable program.entry [] :=
  ⟨[], .nil, .start⟩

/-- The stack moves as the pending calls do. -/
theorem Automaton.Realizable.step {k k' : CallStack}
    (realizable : program.Realizable edge.source k.frames.reverse) (mem : edge ∈ program.edges)
    (moves : k.Moves edge.action k') : program.Realizable edge.target k'.frames.reverse := by
  obtain ⟨path, follows, pending⟩ := realizable
  refine ⟨path ++ [edge], follows.snoc mem, ?_⟩
  generalize action : edge.action = act at moves
  cases moves with
  | call =>
    rw [List.reverse_cons]
    exact pending.enter action
  | resume =>
    rw [List.reverse_cons] at pending
    exact pending.leave action
  | skip | declare | assign | assume | result => exact pending.stay (action ▸ trivial)

/-! ### The component that follows locations -/

variable {σ π : Type} {l l' : LocationState} {p : π}

namespace Analysis

abbrev locationParts (σ π : Type) : Component σ π := locations.onParts

theorem locationParts_successors : (locationParts σ π).successors (.location l) p edge =
    pure ((l.successors edge).map .location) := rfl

theorem locationParts_strengthen {siblings : List Part} :
    (locationParts σ π).strengthen (.location l) siblings edge p = pure .unchanged := rfl

theorem locationParts_merge :
    (locationParts σ π).merge (.location l) (.location l') p = pure (.location l') := by
  show (pure (if l' == l' then Part.location l' else .location l') : AnalysisM σ Part) = _
  rw [ite_self]

end Analysis

theorem CompositeM.shared_pure {α : Type} (b : α) :
    (CompositeM.shared (pure b) : CompositeM σ α) = pure b := rfl

open Analysis (locationParts)

/-! ### Operators -/

theorem CompositeState.point_of_head {e : CompositeState} {n : Point}
    (first : e.parts.head? = some (.location (.point n))) : Located.point? e = some n := by
  show e.parts.head?.bind Part.point? = _
  rw [first]
  rfl

/-- The state is at the end of a realizable path that leaves the calls of its stack pending. -/
def CompositeState.Realizable (program : Automaton) (e : CompositeState) : Prop :=
  ∃ n, e.parts.head? = some (.location (.point n)) ∧
    program.Realizable n e.stack.frames.reverse

namespace Composite

variable {c : Composite σ π} {others : List (Component σ π)} {store : CompositeStore σ}
  {e r : CompositeState} {ps qs : List Part}

theorem state_ensures {bad : Violation → Prop} {fail : Failure → CompositeStore σ → Prop}
    (stack : CallStack) : Ensures (CompositeM.state ps stack) store bad fail fun e _ =>
      e.parts = ps ∧ e.stack = stack := by
  unfold CompositeM.state
  rw [Attempt.ensures_bind, Attempt.ensures_get, Attempt.ensures_bind, Attempt.ensures_modify]
  exact ⟨rfl, rfl⟩

theorem initial_realizable (components : c.components = locationParts σ π :: others) :
    Ensures (c.initial program.entry) store (fun _ => True) (fun _ _ => True) fun e _ =>
      e.Realizable program := by
  unfold initial
  rw [components, List.mapM_cons, show (locationParts σ π).initial program.entry =
    pure (.location (.point program.entry)) from rfl, CompositeM.shared_pure, pure_bind, bind_assoc,
    Attempt.ensures_bind]
  refine (Attempt.ensures_true _ _).mono fun ps store' _ => ?_
  rw [pure_bind]
  refine (state_ensures .empty).mono fun e _ ⟨parts, stack⟩ => ⟨program.entry, ?_, ?_⟩
  · rw [parts, List.head?_cons]
  · rw [stack]
    exact program.realizable_entry

/-! ### Successors -/

theorem partSuccessors_ensures :
    Ensures (partSuccessors p edge (locationParts σ π :: others)
      (.location (.point edge.source) :: ps)) store (fun _ => True) (fun _ _ => True) fun r _ =>
        ∀ nexts, r = some nexts → ∃ rest, nexts = [.location (.point edge.target)] :: rest := by
  rw [partSuccessors, Analysis.locationParts_successors, CompositeM.shared_pure, pure_bind]
  simp only [LocationState.successors, if_true, List.map_cons, List.map_nil, List.isEmpty_cons,
    Bool.false_eq_true, if_false]
  rw [Attempt.ensures_bind]
  refine (Attempt.ensures_true _ _).mono fun r _ _ nexts made => ?_
  obtain ⟨rest, -, rfl⟩ := Option.map_eq_some_iff.mp made
  exact ⟨rest, rfl⟩

theorem head?_of_mem_combinations {α : Type} {x : α} {rest : List (List α)} {tuple : List α}
    (mem : tuple ∈ combinations ([x] :: rest)) : tuple.head? = some x := by
  rw [combinations, List.flatMap_singleton] at mem
  obtain ⟨others, -, rfl⟩ := List.mem_map.mp mem
  exact List.head?_cons

theorem strengthenParts_ensures {l : LocationState} :
    Ensures (strengthenParts p edge qs (locationParts σ π :: others) (.location l :: ps)) store
      (fun _ => True) (fun _ _ => True) fun r _ =>
        ∀ parts, r = some parts → parts.head? = some (.location l) := by
  rw [strengthenParts, Analysis.locationParts_strengthen, CompositeM.shared_pure, pure_bind]
  simp only
  rw [Attempt.ensures_bind]
  refine (Attempt.ensures_true _ _).mono fun r _ _ parts made => ?_
  obtain ⟨rest, -, rfl⟩ := Option.map_eq_some_iff.mp made
  exact List.head?_cons

theorem successors_realizable (components : c.components = locationParts σ π :: others)
    (realizable : e.Realizable program) (leaves : edge ∈ Analysis.edgesFrom program e) :
    Ensures (c.successors e p edge) store (fun _ => True) (fun _ _ => True) fun next _ =>
      ∀ f ∈ next, f.Realizable program := by
  obtain ⟨n, first, reached⟩ := realizable
  obtain ⟨mem, rfl⟩ := (Analysis.mem_edgesFrom (CompositeState.point_of_head first)).mp leaves
  obtain ⟨ps, parts⟩ := List.head?_eq_some_iff.mp first
  unfold successors
  split
  · simp
  rename_i stack after
  have moved := reached.step mem (CallStack.moves_of_after? after)
  rw [components, parts, Attempt.ensures_bind]
  refine partSuccessors_ensures.mono fun r store' begins => ?_
  cases r with
  | none => simp
  | some nexts =>
    obtain ⟨rest, rfl⟩ := begins nexts rfl
    let tells (_ : List Part) (r : Option CompositeState) (_ : CompositeStore σ) : Prop :=
      ∀ f, r = some f → f.Realizable program
    refine Attempt.Ensures.mono (Ambient.keeps_filterMapM (A := .any _) tells (fun told _ => told)
      trivial ?_) fun fs _ found f mem => ?_
    · intro tuple inside store'' _ _
      obtain ⟨qs, rfl⟩ := List.head?_eq_some_iff.mp (head?_of_mem_combinations inside)
      unfold Ambient.Keeps
      rw [Attempt.ensures_bind]
      refine strengthenParts_ensures.mono fun r store₃ keeps => ?_
      cases r with
      | none => exact ⟨trivial, trivial, by simp [tells]⟩
      | some parts =>
        rw [Attempt.ensures_bind]
        refine (state_ensures stack).mono fun f _ made => ⟨trivial, trivial, ?_⟩
        obtain ⟨own, same⟩ := made
        rintro _ ⟨⟩
        exact ⟨edge.target, own ▸ keeps parts rfl, same ▸ moved⟩
    · obtain ⟨-, -, origin, -⟩ := found
      obtain ⟨tuple, -, told⟩ := origin f mem
      exact told f rfl

/-! ### Merging -/

theorem zipParts_ensures {l l' : LocationState} :
    Ensures (zipParts (fun a q r => a.merge q r p) (locationParts σ π :: others)
      (.location l :: ps) (.location l' :: qs)) store (fun _ => True) (fun _ _ => True)
      fun merged _ => merged.head? = some (.location l') := by
  rw [zipParts, Analysis.locationParts_merge, CompositeM.shared_pure, pure_bind, Attempt.ensures_bind]
  exact (Attempt.ensures_true _ _).mono fun _ _ _ => List.head?_cons

theorem merge_realizable (components : c.components = locationParts σ π :: others)
    (here : e.Realizable program) (there : r.Realizable program) :
    Ensures (c.merge e r p) store (fun _ => True) (fun _ _ => True) fun m _ =>
      m.Realizable program := by
  have kept := there
  obtain ⟨_, first, -⟩ := here
  obtain ⟨n, first', reached⟩ := there
  obtain ⟨ps, parts⟩ := List.head?_eq_some_iff.mp first
  obtain ⟨qs, parts'⟩ := List.head?_eq_some_iff.mp first'
  unfold merge
  split
  · exact kept
  rw [components, parts, parts', Attempt.ensures_bind]
  refine zipParts_ensures.mono fun merged store' head => ?_
  split
  · exact kept
  · refine (state_ensures r.stack).mono fun m _ ⟨own, same⟩ => ?_
    exact ⟨n, own ▸ head, same ▸ reached⟩

/-! ### Runs -/

theorem analysis_preserves (components : c.components = locationParts σ π :: others)
    (program : Automaton) : c.analysis.Preserves program (·.Realizable program) where
  initial := by
    rintro e ⟨store, store', run⟩
    exact (initial_realizable components).of_ok run
  successors := by
    rintro e p edge next realizable leaves ⟨store, store', run⟩
    exact (successors_realizable components realizable leaves).of_ok run
  merge := by
    rintro e r p m here there ⟨store, store', run⟩
    exact (merge_realizable components here there).of_ok run

/-- At every stage of a run, every state that was reached or waits is at the end of a realizable path to its
point, and its call stack holds the calls that are pending there. A run reaches nothing that is not reached
at one of its stages, also if it fails. -/
theorem realizable_of_steps (components : c.components = locationParts σ π :: others)
    {specialized : Bool} {limit : Nat} {store' : CompositeStore σ} {r : ReachedSet CompositeState π}
    (started : (c.analysis.start program specialized p).run store = .ok (.ok r, store')) :
    (∀ s, Analysis.Steps c.analysis program ⟨⟨store', r⟩, [.explore limit]⟩ s →
      ∀ e, e ∈ s.state.reached.states ∨ e ∈ s.state.reached.waiting →
        ∃ n, e.point? = some n ∧ program.Realizable n e.stack.frames.reverse) ∧
      ∀ report y, (c.analysis.run program limit).run ⟨store', r⟩ = .ok (report, y) →
        ∃ s, Analysis.Steps c.analysis program ⟨⟨store', r⟩, [.explore limit]⟩ s ∧
          s.state.reached = y.reached := by
  constructor
  · intro s steps e mem
    have all := (analysis_preserves components program).allGood started steps
    obtain ⟨n, first, realizable⟩ : e.Realizable program := mem.elim (all.states e) (all.waiting e)
    exact ⟨n, CompositeState.point_of_head first, realizable⟩
  · intro report y run
    have passes := Analysis.run_passes (x := ⟨store', r⟩) c.analysis program limit
    replace passes := Checked.Ensures.of_ok passes run
    cases report with
    | ok _ => exact ⟨⟨y, []⟩, passes, rfl⟩
    | error _ => exact passes

/-- A function with two ways back, one of them to a call that is never made. -/
def twoCallers : Automaton where
  points := 4
  edges := [⟨⟨0⟩, ⟨1⟩, .call "f" [] [] ⟨0⟩⟩, ⟨⟨1⟩, ⟨2⟩, .resume "f" ⟨0⟩ none⟩,
    ⟨⟨1⟩, ⟨3⟩, .resume "f" ⟨3⟩ none⟩]
  entries := .empty
  loopHeads := []
  entry := ⟨0⟩
  edges_inside := by decide

theorem realizable_of_steps_twoCallers :
    ∃ (c : Composite Unit Unit) (r : ReachedSet CompositeState Unit) (store : CompositeStore Unit)
      (s : Analysis.Stage (CompositeStore Unit) CompositeState Unit),
      (c.analysis.start twoCallers true ()).run ⟨(), 1, 0⟩ = .ok (.ok r, store) ∧
      Analysis.Steps c.analysis twoCallers ⟨⟨store, r⟩, [.explore 5]⟩ s ∧
      (∃ e ∈ s.state.reached.states, e.point? = some ⟨1⟩ ∧ e.stack = ⟨[⟨"f", ⟨0⟩⟩]⟩ ∧
        twoCallers.Realizable ⟨1⟩ [⟨"f", ⟨0⟩⟩]) ∧
      ∀ e ∈ s.state.reached.states, e.point? ≠ some ⟨3⟩ := by
  let c : Composite Unit Unit := ⟨[locationParts Unit Unit, (Analysis.signs .join).onParts], true⟩
  let r : ReachedSet CompositeState Unit :=
    (ReachedSet.empty true).add ⟨1, [.location (.point ⟨0⟩), .sign .top], .empty⟩ ()
  have started : (c.analysis.start twoCallers true ()).run ⟨(), 1, 0⟩ =
      .ok (.ok r, ⟨(), 2, 0⟩) := rfl
  have finished : (match (c.analysis.run twoCallers 5).run ⟨⟨(), 2, 0⟩, r⟩ with
      | .ok (_, y) => y.reached.states.any (fun e => decide (e.point? = some ⟨1⟩) &&
            decide (e.stack = ⟨[⟨"f", ⟨0⟩⟩]⟩)) &&
          y.reached.states.all fun e => decide (e.point? ≠ some ⟨3⟩)
      | _ => false) = true := by decide +kernel
  split at finished
  · rename_i report y ran
    obtain ⟨every, onto⟩ := realizable_of_steps rfl started
    obtain ⟨s, steps, same⟩ := onto report y ran
    rw [← same, Bool.and_eq_true, List.any_eq_true, List.all_eq_true] at finished
    obtain ⟨⟨e, mem, here⟩, others⟩ := finished
    obtain ⟨point, stack⟩ := Bool.and_eq_true_iff.mp here
    have point := of_decide_eq_true point
    have stack := of_decide_eq_true stack
    obtain ⟨n, there, realizable⟩ := every s steps e (.inl mem)
    cases point.symm.trans there
    rw [stack] at realizable
    exact ⟨c, r, _, s, started, steps, ⟨e, mem, point, stack, realizable⟩,
      fun e mem => of_decide_eq_true (others e mem)⟩
  · cases finished

end Composite

end ProgramAnalysis
