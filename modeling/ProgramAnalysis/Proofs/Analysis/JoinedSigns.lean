import Mathlib.Data.List.Dedup
import ProgramAnalysis.Proofs.Analysis.Climbing
import ProgramAnalysis.Proofs.Analysis.RealizablePaths
import ProgramAnalysis.Proofs.Analysis.SignLattice
import ProgramAnalysis.Proofs.Analysis.Specialized
import ProgramAnalysis.Proofs.Analysis.Values

/-! Locations with signs that are joined. Without calls all states at a point have the empty call stack, so
there is one state for each point. Edges only tell the signs of variables that they name, so a state changes
at most twice for each of these, and a run is over after as many steps. -/
namespace ProgramAnalysis

open Attempt (Ensures)

/-! ### Programs -/

def Expr.vars : Expr → List String
  | .var x => [x]
  | .const _ | .nondet => []
  | .deref e | .neg e | .not e | .bitNot e => e.vars
  | .arith _ a b | .compare _ a b | .logic _ a b => a.vars ++ b.vars

def Action.vars : Action → List String
  | .skip => []
  | .declare x init => x :: init.elim [] Expr.vars
  | .assign target value => target.vars ++ value.vars
  | .assume condition _ => condition.vars
  | .call _ arguments parameters _ => arguments.flatMap Expr.vars ++ parameters
  | .resume function _ target => resultVar function :: target.elim [] Expr.vars
  | .result function value => resultVar function :: value.elim [] Expr.vars

namespace Automaton

/-- The variables of all edges, each of them once. -/
def vars (a : Automaton) : List String := (a.edges.flatMap (·.action.vars)).dedup

theorem vars_of_mem {a : Automaton} {edge : Edge} (mem : edge ∈ a.edges) :
    edge.action.vars ⊆ a.vars := fun _ named =>
  List.mem_dedup.mpr (List.mem_flatMap.mpr ⟨edge, mem, named⟩)

/-- The automata that can be made. -/
inductive Built : Automaton → Prop
  | start (main : String) : Built (.start main)
  | addPoint {a : Automaton} (built : Built a) : Built a.addPoint.2
  | addFunction {a : Automaton} (built : Built a) (name : String) : Built (a.addFunction name).2
  | addLoopHead {a : Automaton} (built : Built a) (x : Point) : Built (a.addLoopHead x)
  | addEdge {a b : Automaton} {edge : Edge} (built : Built a) (added : a.addEdge edge = .ok b) : Built b

theorem Built.entry_inside {a : Automaton} (built : a.Built) : a.entry.id < a.points := by
  induction built with
  | start => exact Nat.zero_lt_one
  | addPoint _ ih => exact Nat.lt_succ_of_lt ih
  | addFunction _ name ih =>
    unfold Automaton.addFunction
    split
    · exact ih
    · exact Nat.lt_succ_of_lt ih
  | addLoopHead _ _ ih => exact ih
  | addEdge _ added ih =>
    unfold Automaton.addEdge at added
    split at added
    · cases added
      exact ih
    · cases added

end Automaton

/-! ### What edges tell -/

namespace SignState

variable {st st' : SignState} {vars : List String} {x : String} {s : Sign} {e target : Expr}

theorem within_bottom : bottom.Within vars := fun known => (known rfl).elim

theorem within_top : top.Within vars := fun _ _ _ => rfl

theorem ne_bottom_of_set (known : st.set x s ≠ .bottom) : st ≠ .bottom ∧ s ≠ .bottom := by
  constructor
  · rintro rfl
    exact known rfl
  · rintro rfl
    cases st <;> exact known rfl

/-- Only variables of the list are set, but any variable may be forgotten. -/
theorem Within.set (within : st.Within vars) (named : x ∈ vars ∨ s = .top) :
    (st.set x s).Within vars := by
  intro known y other
  obtain ⟨known, some⟩ := ne_bottom_of_set known
  rw [get_set known some]
  split
  · rename_i same
    exact named.resolve_left (same ▸ other)
  · exact within known y other

theorem Within.join (within : st.Within vars) (within' : st'.Within vars) :
    (st.join st').Within vars := by
  cases st with
  | bottom => exact within'
  | known m =>
    cases st' with
    | bottom => exact within
    | known n =>
      intro _ x other
      rw [get_join, within (known_ne_bottom m) x other, Sign.top_join]

theorem Within.assumeValue (within : st.Within vars) (truth : Bool) :
    (st.assumeValue e truth).Within vars := by
  have kept : st.assumeValue e truth = st ∨ st.assumeValue e truth = bottom := ite_eq_or_eq _ _ _
  rcases kept with kept | kept
  · rw [kept]
    exact within
  · rw [kept]
    exact within_bottom

theorem Within.assumeSide {c : Comparison} {other : Expr} (within : st.Within vars)
    (named : e.vars ⊆ vars) : (st.assumeSide c e other).Within vars := by
  cases e with
  | var x => exact within.set (.inl (named List.mem_cons_self))
  | _ => exact within

theorem Within.assume {truth : Bool} (within : st.Within vars) (named : e.vars ⊆ vars) :
    (st.assume e truth).Within vars := by
  induction e generalizing st truth with
  | not e ih => exact ih within named
  | compare c a b =>
    obtain ⟨left, right⟩ := List.append_subset.mp named
    exact (within.assumeSide left).assumeSide right
  | logic c a b ihA ihB =>
    obtain ⟨left, right⟩ := List.append_subset.mp named
    cases c with
    | and =>
      cases truth with
      | true => exact ihB (ihA within left) right
      | false => exact within.assumeValue false
    | or =>
      cases truth with
      | true => exact within.assumeValue true
      | false => exact ihB (ihA within left) right
  | var x => exact within.set (.inl (named List.mem_cons_self))
  | _ => exact within.assumeValue truth

theorem Within.assignTo (within : st.Within vars) (named : target.vars ⊆ vars)
    (assigned : st.assignTo target s = .ok st') : st'.Within vars := by
  cases target with
  | var x =>
    cases assigned
    exact within.set (.inl (named List.mem_cons_self))
  | _ => cases assigned

theorem Within.after {a : Action} (within : st.Within vars) (named : a.vars ⊆ vars)
    (after : st.after a = .ok st') : st'.Within vars := by
  cases a with
  | skip =>
    cases after
    exact within
  | declare x init =>
    cases after
    exact within.set (.inl (named List.mem_cons_self))
  | assign target value => exact within.assignTo (List.append_subset.mp named).1 after
  | assume condition truth =>
    cases after
    exact within.assume named
  | call function arguments parameters site =>
    simp only [SignState.after] at after
    split at after
    · cases after
      have parameter := (List.append_subset.mp named).2
      refine List.foldlRecOn (motive := Within vars) _ _ within fun acc within e mem => ?_
      exact within.set (.inl (parameter (List.of_mem_zip mem).1))
    · cases after
  | resume function site target =>
    cases target with
    | none =>
      cases after
      exact within.set (.inr rfl)
    | some target =>
      obtain ⟨st', assigned, rest⟩ := Outcome.exists_of_bind after
      cases rest
      exact (within.assignTo (List.cons_subset.mp named).2 assigned).set (.inr rfl)
  | result function value =>
    cases after
    exact within.set (.inl (named List.mem_cons_self))

theorem successors_cases (start : st ≠ .bottom) (edge : Edge) :
    (∃ cause, st.successors edge = .error (.unrecognized edge.toText cause)) ∨
    st.successors edge = .ok [] ∨
    ∃ f, st.after edge.action = .ok f ∧ f ≠ .bottom ∧ st.successors edge = .ok [f] := by
  cases st with
  | bottom => exact (start rfl).elim
  | known m =>
    simp only [successors]
    cases (known m).after edge.action with
    | error cause => exact .inl ⟨cause, rfl⟩
    | ok f =>
      cases f with
      | bottom => exact .inr (.inl rfl)
      | known n => exact .inr (.inr ⟨_, rfl, known_ne_bottom n, rfl⟩)

end SignState

/-! ### Parts -/

namespace Analysis

variable {σ π : Type} {st st' : SignState} {p : π} {edge : Edge}

abbrev signParts (σ π : Type) : Component σ π := (signs .join).onParts

theorem signParts_successors {next : List SignState} (found : st.successors edge = .ok next) :
    (signParts σ π).successors (.sign st) p edge = pure (next.map .sign) := by
  show ofExcept (st.successors edge) >>= _ = _
  rw [found]
  rfl

theorem signParts_successors_failure {f : Failure} (found : st.successors edge = .error f) :
    (signParts σ π).successors (.sign st) p edge = throw f := by
  show ofExcept (st.successors edge) >>= _ = _
  rw [found]
  rfl

theorem signParts_merge :
    (signParts σ π).merge (.sign st) (.sign st') p = pure (.sign (st.join st')) := by
  show (pure (if st.join st' == st' then Part.sign st' else .sign (st.join st')) : AnalysisM σ Part) = _
  split
  · rename_i same
    rw [eq_of_beq same]
  · rfl

end Analysis

/-! ### Operators -/

namespace CompositeState

/-- The state is at the point `n`, outside of all calls, and has the signs `st`. -/
structure SignsAt (e : CompositeState) (n : Point) (st : SignState) : Prop where
  parts : e.parts = [.location (.point n), .sign st]
  stack : e.stack = .empty

def signs (e : CompositeState) : SignState := (Part.first? SignState e.parts).getD .bottom

variable {e f : CompositeState} {n n' : Point} {st st' : SignState}

theorem SignsAt.signs_eq (here : e.SignsAt n st) : e.signs = st := by
  rw [signs, here.parts]
  rfl

theorem SignsAt.point (here : e.SignsAt n st) : Located.point? e = some n :=
  point_of_head (by rw [here.parts, List.head?_cons])

theorem SignsAt.eq_of_beq (here : e.SignsAt n st) (there : f.SignsAt n' st') (same : (e == f) = true) :
    st = st' := by
  obtain ⟨-, parts⟩ := beq_iff_core.mp same
  rw [here.parts, there.parts] at parts
  obtain ⟨-, parts⟩ := List.cons.inj parts
  exact Part.sign.inj (List.cons.inj parts).1

end CompositeState

theorem CallStack.empty_after? {a : Action}
    (outside : ∀ function arguments parameters site, a ≠ .call function arguments parameters site) :
    CallStack.empty.after? a = none ∨ CallStack.empty.after? a = some .empty := by
  cases a with
  | call function arguments parameters site => exact (outside _ _ _ _ rfl).elim
  | resume function site target =>
    left
    rw [CallStack.after?, if_neg]
    intro top
    cases top
  | _ => exact .inr rfl

def Failure.IsUnrecognized (f : Failure) : Prop := ∃ edge cause, f = .unrecognized edge cause

namespace Composite

open Analysis (Answers signParts locationParts)

variable {σ π : Type}

abbrev joinedSigns (specialized : Bool) : Composite σ π := ofValues [.signs .join] specialized

variable {specialized : Bool} {e r : CompositeState} {n : Point} {st st' : SignState} {p : π} {edge : Edge}

theorem initial_signs (n : Point) :
    Answers ((joinedSigns (σ := σ) (π := π) specialized).initial n) (fun _ => False) (·.SignsAt n .top) := by
  intro store
  show Ensures (CompositeM.state [.location (.point n), .sign .top] .empty) store _ _ _
  refine (state_ensures .empty).mono fun e _ made => ?_
  exact ⟨made.1, made.2⟩

theorem partSuccessors_signs {next : List SignState} (found : st.successors edge = .ok next) :
    partSuccessors p edge (joinedSigns (σ := σ) specialized).components
      [.location (.point edge.source), .sign st] =
        pure (if next.isEmpty then none
          else some [[.location (.point edge.target)], next.map .sign]) := by
  show partSuccessors p edge [locationParts σ π, signParts σ π] _ = _
  rw [partSuccessors, Analysis.locationParts_successors, LocationState.successors, if_pos rfl,
    CompositeM.shared_pure, pure_bind, partSuccessors, Analysis.signParts_successors found,
    CompositeM.shared_pure, pure_bind]
  cases next with
  | nil => rfl
  | cons f next => rfl

theorem partSuccessors_signs_failure {f : Failure} (failed : st.successors edge = .error f) :
    partSuccessors p edge (joinedSigns (σ := σ) specialized).components
      [.location (.point edge.source), .sign st] = throw f := by
  show partSuccessors p edge [locationParts σ π, signParts σ π] _ = _
  rw [partSuccessors, Analysis.locationParts_successors, LocationState.successors, if_pos rfl,
    CompositeM.shared_pure, pure_bind, partSuccessors, Analysis.signParts_successors_failure failed]
  rfl

theorem strengthenParts_signs {l : LocationState} :
    strengthenParts p edge [.location l, .sign st] (joinedSigns (σ := σ) specialized).components
      [.location l, .sign st] = pure (some [.location l, .sign st]) := rfl

theorem successors_signs (here : e.SignsAt edge.source st) (start : st ≠ .bottom)
    (outside : ∀ function arguments parameters site,
      edge.action ≠ .call function arguments parameters site) :
    Answers ((joinedSigns (σ := σ) specialized).successors e p edge) Failure.IsUnrecognized fun next =>
      ∀ f ∈ next, ∃ st', st.after edge.action = .ok st' ∧ st' ≠ .bottom ∧ f.SignsAt edge.target st' := by
  intro store
  unfold Composite.successors
  rw [here.parts, here.stack]
  rcases CallStack.empty_after? outside with after | after
  · rw [after]
    exact fun _ mem => (List.not_mem_nil mem).elim
  rw [after]
  rcases st.successors_cases start edge with ⟨cause, failed⟩ | none | ⟨f, acted, known, found⟩
  · rw [partSuccessors_signs_failure failed]
    exact ⟨_, _, rfl⟩
  · rw [partSuccessors_signs none]
    exact fun _ mem => (List.not_mem_nil mem).elim
  · rw [partSuccessors_signs found]
    have one : combinations [[Part.location (.point edge.target)], [f].map .sign] =
        [[.location (.point edge.target), .sign f]] := rfl
    simp only [pure_bind, List.isEmpty_cons, Bool.false_eq_true, if_false, one, List.filterMapM_cons,
      List.filterMapM_nil, strengthenParts_signs, bind_assoc]
    rw [Attempt.ensures_bind]
    refine (state_ensures .empty).mono fun e _ made => ?_
    exact List.forall_mem_singleton.mpr ⟨f, acted, known, made.1, made.2⟩

theorem merge_signs (here : e.SignsAt n st) (there : r.SignsAt n st') :
    Answers ((joinedSigns (σ := σ) specialized).merge e r p) (fun _ => False) fun m =>
      (m = r ∧ st.join st' = st') ∨ m.SignsAt n (st.join st') ∧ st.join st' ≠ st' := by
  intro store
  have point : e.point? = r.point? := here.point.trans there.point.symm
  have stack : e.stack = r.stack := here.stack.trans there.stack.symm
  have merged : zipParts (fun a q r => a.merge q r p) (joinedSigns (σ := σ) specialized).components
      e.parts r.parts = pure [.location (.point n), .sign (st.join st')] := by
    show zipParts _ [locationParts σ π, signParts σ π] _ _ = _
    rw [here.parts, there.parts, zipParts, Analysis.locationParts_merge, CompositeM.shared_pure,
      pure_bind, zipParts, Analysis.signParts_merge]
    rfl
  have unchanged : (([Part.location (.point n), .sign (st.join st')].zip r.parts).all
      fun x => x.1 == x.2) = true ↔ st.join st' = st' := by
    rw [there.parts]
    show ((LocationState.point n == .point n) && ((st.join st' == st') && true)) = true ↔ _
    rw [beq_self_eq_true, Bool.true_and, Bool.and_true, beq_iff_eq]
  unfold Composite.merge
  simp only [point, stack, ne_eq, not_true_eq_false, decide_false, Bool.or_self, Bool.false_eq_true, if_false,
    merged, pure_bind, unchanged]
  split
  · rename_i same
    exact .inl ⟨rfl, same⟩
  · rename_i differs
    refine (state_ensures r.stack).mono fun m _ made => ?_
    exact .inr ⟨⟨made.1, made.2.trans there.stack⟩, differs⟩

theorem covers_signs (here : e.SignsAt n st) (there : r.SignsAt n st') :
    Answers ((joinedSigns (σ := σ) (π := π) true).covers e r) (fun _ => False) (· = st.le r.signs) := by
  intro store
  have point : e.point? = r.point? := here.point.trans there.point.symm
  have stack : e.stack = r.stack := here.stack.trans there.stack.symm
  have compared : allParts (·.covers) [signParts σ π] [.sign st] [.sign st'] = pure (st.le st') := by
    show CompositeM.shared (pure (st.le st')) >>= _ = _
    rw [CompositeM.shared_pure, pure_bind]
    cases st.le st' <;> rfl
  unfold Composite.covers
  simp only [point, stack, here.parts, there.parts, there.signs_eq, ne_eq, not_true_eq_false, if_false]
  rw [Attempt.ensures_bind, Attempt.ensures_modify]
  show Ensures (allParts (·.covers) [signParts σ π] [.sign st] [.sign st']) _ _ _ _
  rw [compared]
  exact rfl

theorem stop_signs (here : e.SignsAt n st) (known : st ≠ .bottom) {rs : List CompositeState}
    (there : ∀ r ∈ rs, ∃ st', r.SignsAt n st') :
    Answers ((joinedSigns (σ := σ) (π := π) specialized).stop e rs) (fun _ => False) fun covered =>
      (∃ r ∈ rs, st.le r.signs = true) → covered = true := by
  -- A set that is not specialized looks at the points too, which are equal here.
  have same : (joinedSigns (σ := σ) (π := π) specialized).stop e rs =
      (joinedSigns (σ := σ) (π := π) true).stop e rs := by
    cases specialized with
    | true => rfl
    | false =>
      refine (stop_specialized [signParts σ π] here.point fun r mem => ?_).symm
      obtain ⟨_, near⟩ := there r mem
      exact near.point
  have proper : anyCheckedBottom [signParts σ π] [.sign st] = pure false := by
    cases st with
    | bottom => exact (known rfl).elim
    | known m => rfl
  rw [same]
  intro store
  unfold stop
  split
  · exact fun _ => rfl
  rw [here.parts]
  show Ensures (anyCheckedBottom [signParts σ π] [.sign st] >>= _) _ _ _ _
  rw [proper]
  have tested : Answers (anyOf ((joinedSigns (σ := σ) (π := π) true).covers e) rs) (fun _ => False)
      (· = rs.any fun r => st.le r.signs) := by
    refine .anyOf fun r mem => ?_
    obtain ⟨_, near⟩ := there r mem
    exact covers_signs here near
  refine (tested store).mono fun covered _ answer found => ?_
  rw [answer, List.any_eq_true]
  exact found

/-! ### Runs -/

/-- The states of a program without calls, ordered and ranked by their signs. -/
def signRanking (program : Automaton) : Analysis.Ranking CompositeState where
  good e := ∃ n st, e.SignsAt n st ∧ n.id < program.points ∧ st ≠ .bottom ∧ st.Within program.vars
  le e f := e.signs.le f.signs = true
  rank e := e.signs.rank program.vars
  height := 2 * program.vars.length

variable {program : Automaton}

theorem joinedSigns_climbs (specialized : Bool) (inside : program.entry.id < program.points)
    (outside : ∀ edge ∈ program.edges, ∀ function arguments parameters site,
      edge.action ≠ .call function arguments parameters site) :
    (joinedSigns (σ := σ) (π := π) specialized).analysis.Climbs program (signRanking program)
      Failure.IsUnrecognized where
  located := by
    rintro e ⟨n, st, here, bound, -⟩
    exact ⟨n, here.point, bound⟩
  bounded _ := SignState.rank_le _ _
  same := CompositeState.equalLocated _ _
  self _ := BEq.rfl
  initial := by
    intro store
    refine (initial_signs program.entry store).mono fun e _ here => ?_
    exact ⟨_, _, here, inside, SignState.known_ne_bottom .empty, SignState.within_top⟩
  successors := by
    rintro e p edge ⟨n, st, here, -, known, within⟩ leaves store
    obtain ⟨mem, rfl⟩ := (Analysis.mem_edgesFrom here.point).mp leaves
    refine (successors_signs here known (outside edge mem) store).mono fun next _ told f among => ?_
    obtain ⟨st', after, known', there⟩ := told f among
    exact ⟨_, st', there, (program.edges_inside edge mem).2, known',
      within.after (Automaton.vars_of_mem mem) after⟩
  merge := by
    rintro e r p ⟨n, st, here, bound, known, within⟩ ⟨n', st', there, -, known', within'⟩ point store
    obtain rfl : n' = n := Option.some.inj (there.point.symm.trans (point.trans here.point))
    refine (merge_signs here there store).mono fun m _ merged => ?_
    have above := SignState.le_join_left st st'
    dsimp only
    rcases merged with ⟨rfl, same⟩ | ⟨new, differs⟩
    · rw [if_pos BEq.rfl]
      show e.signs.le m.signs = true
      rw [here.signs_eq, there.signs_eq, ← same]
      exact above
    · rw [if_neg fun same => differs (new.eq_of_beq there same)]
      have higher := SignState.rank_lt known' within' (SignState.le_join_right st st') (Ne.symm differs)
      refine ⟨⟨_, _, new, bound, SignState.join_ne_bottom known', within.join within'⟩,
        new.point.trans there.point.symm, ?_, ?_⟩
      · show e.signs.le m.signs = true
        rw [here.signs_eq, new.signs_eq]
        exact above
      · show r.signs.rank _ < m.signs.rank _
        rw [there.signs_eq, new.signs_eq]
        exact higher
  stop := by
    rintro e rs ⟨n, st, here, -, known, -⟩ near store
    have there : ∀ r ∈ rs, ∃ st', r.SignsAt n st' := by
      intro r mem
      obtain ⟨⟨n', st', there, -⟩, point⟩ := near r mem
      obtain rfl : n' = n := Option.some.inj (there.point.symm.trans (point.trans here.point))
      exact ⟨st', there⟩
    refine (stop_signs here known there store).mono fun covered _ covers found => covers ?_
    rw [← here.signs_eq]
    exact found

/-- A run of locations with joined signs never has two states at one point. If it may take as many states
as there are points and changes of their signs, it is over, or an edge is not understood. -/
theorem joinedSigns_finish (specialized divided : Bool) (built : program.Built)
    (outside : ∀ edge ∈ program.edges, ∀ function arguments parameters site,
      edge.action ≠ .call function arguments parameters site) (p : π) (store : CompositeStore σ) :
    let a := (ofValues (σ := σ) (π := π) [.signs .join] specialized).analysis
    ∃ r store', (a.start program divided p).run store = .ok (.ok r, store') ∧ ∀ limit,
      (∀ s, a.Steps program ⟨⟨store', r⟩, [.explore limit]⟩ s →
        ∀ n, (s.state.reached.statesAt n).length ≤ 1) ∧
      (∀ report y, (a.run program limit).run ⟨store', r⟩ = .ok (report, y) →
        ∀ n, (y.reached.statesAt n).length ≤ 1) ∧
      (program.points * (2 * program.vars.length + 1) ≤ limit →
        (∃ edge cause y, (a.run program limit).run ⟨store', r⟩ =
          .ok (.error (.unrecognized edge cause), y)) ∨
        ∃ report y, (a.run program limit).run ⟨store', r⟩ = .ok (.ok report, y) ∧
          report.incomplete = false) := by
  intro a
  have climbs : a.Climbs program (signRanking program) Failure.IsUnrecognized :=
    joinedSigns_climbs specialized built.entry_inside outside
  obtain ⟨r, store', started, ranked⟩ := climbs.starts divided p store
  refine ⟨r, store', started, fun limit => ⟨fun s steps n => ?_, fun report y ran n => ?_, ?_⟩⟩
  · exact ((ranked limit).steps climbs steps).single.statesAt_length n
  · exact (climbs.single_of_run (ranked limit) ran).statesAt_length n
  · intro enough
    obtain ⟨report, y, ran, ends⟩ := Checked.Ensures.exists_run (climbs.finishes enough (ranked limit))
    cases report with
    | ok report => exact .inr ⟨report, y, ran, ends⟩
    | error f =>
      obtain ⟨edge, cause, rfl⟩ := ends
      exact .inl ⟨edge, cause, y, ran⟩

/-- A variable is set and then counts up for ever. -/
def countingProgram : Automaton where
  points := 2
  edges := [.assign ⟨0⟩ ⟨1⟩ "x" (.const 0),
    .assign ⟨1⟩ ⟨1⟩ "x" (.arith .add (.var "x") (.const 1))]
  entries := NameMap.empty.insert "main" ⟨0⟩
  loopHeads := []
  entry := ⟨0⟩
  edges_inside := by decide

theorem built_countingProgram : countingProgram.Built := by
  let entered : Automaton := (Automaton.start "main").addPoint.2
  let set : Automaton := { countingProgram with
    edges := [.assign ⟨0⟩ ⟨1⟩ "x" (.const 0)]
    edges_inside := by decide }
  have points : entered.Built := .addPoint (.start "main")
  have first : entered.addEdge (.assign ⟨0⟩ ⟨1⟩ "x" (.const 0)) = .ok set := rfl
  have second : set.addEdge (.assign ⟨1⟩ ⟨1⟩ "x" (.arith .add (.var "x") (.const 1))) =
      .ok countingProgram := rfl
  exact (points.addEdge first).addEdge second

/-- The run met no edge that the analysis does not understand. -/
def understands (ran : Except Violation
    (Except Failure RunReport × Exploration (CompositeStore Unit) CompositeState Unit)) : Bool :=
  match ran with
  | .ok (.ok _, _) => true
  | _ => false

theorem joinedSigns_finish_counting :
    countingProgram.Built ∧ countingProgram.vars = ["x"] ∧
    ∃ (r : ReachedSet CompositeState Unit) (store : CompositeStore Unit) (report : RunReport)
      (y : Exploration (CompositeStore Unit) CompositeState Unit),
      ((ofValues [.signs .join] true).analysis.start countingProgram true ()).run ⟨(), 1, 0⟩ =
        .ok (.ok r, store) ∧
      ((ofValues [.signs .join] true).analysis.run countingProgram 6).run ⟨store, r⟩ =
        .ok (.ok report, y) ∧
      report.incomplete = false ∧ ∀ n, (y.reached.statesAt n).length ≤ 1 := by
  have outside : ∀ edge ∈ countingProgram.edges, ∀ function arguments parameters site,
      edge.action ≠ .call function arguments parameters site := by
    simp [countingProgram, Edge.assign]
  have vars : countingProgram.vars = ["x"] := by decide
  let r : ReachedSet CompositeState Unit :=
    (ReachedSet.empty true).add ⟨1, [.location (.point ⟨0⟩), .sign .top], .empty⟩ ()
  have understood : understands
      (((ofValues [.signs .join] true).analysis.run countingProgram 6).run ⟨⟨(), 2, 0⟩, r⟩) = true := by
    decide +kernel
  have began : ((ofValues [.signs .join] true).analysis.start countingProgram true ()).run
      (⟨(), 1, 0⟩ : CompositeStore Unit) = .ok (.ok r, ⟨(), 2, 0⟩) := rfl
  obtain ⟨r', store, started, runs⟩ :=
    joinedSigns_finish true true built_countingProgram outside () (⟨(), 1, 0⟩ : CompositeStore Unit)
  cases began.symm.trans started
  obtain ⟨-, single, finishes⟩ := runs 6
  refine ⟨built_countingProgram, vars, r, ⟨(), 2, 0⟩, ?_⟩
  rcases finishes (by rw [vars]; decide) with ⟨edge, cause, y, ran⟩ | ⟨report, y, ran, complete⟩
  · rw [ran] at understood
    cases understood
  · exact ⟨report, y, began, ran, complete, single _ y ran⟩

end Composite

end ProgramAnalysis
