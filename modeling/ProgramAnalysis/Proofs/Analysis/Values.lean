import ProgramAnalysis.Proofs.Analysis.Explicit
import ProgramAnalysis.Proofs.Analysis.Sign

/-! The analysis of values: locations with signs and known values beside them. A complete run has reached
every moment of every execution on 64-bit numbers. -/
namespace ProgramAnalysis

/-- An analysis that tells something of the values of variables. -/
inductive ValueKind where
  | signs (rule : Analysis.MergeRule)
  | values

namespace ValueKind

variable {σ π : Type}

def component : ValueKind → Component σ π
  | signs rule => (Analysis.signs rule).onParts
  | values => Analysis.values.onParts

def Contains : ValueKind → Part → Store → Prop
  | signs _, .sign st, s => st.Contains s
  | values, .explicit e, s => e.Contains s
  | _, _, _ => False

variable {A : Ambient σ} {program : Automaton} {π₀ : π}

def sound (abstracts : PredicateState → Config → Prop) (A : Ambient σ) (program : Automaton)
    (π₀ : π) : ValueKind → SoundComponent A (Part.Contains abstracts) .machine program π₀
  | signs rule => (Analysis.signs_sound abstracts rule).component
  | values => (Analysis.values_sound abstracts).component

variable {abstracts : PredicateState → Config → Prop}

theorem sound_component (k : ValueKind) :
    (k.sound abstracts A program π₀).component = k.component := by
  cases k <;> rfl

theorem contains_of_good {k : ValueKind} {s : σ} {p : Part} {c : Config}
    (good : (k.sound abstracts A program π₀).good s p) (holds : Part.Contains abstracts p c) :
    k.Contains p c.store := by
  cases k with
  | signs rule =>
    obtain ⟨st, rfl, -⟩ := good
    exact holds
  | values =>
    obtain ⟨e, rfl, -⟩ := good
    exact holds

theorem contains_of_goodParts {kinds : List ValueKind} {s : σ} {ps : List Part} {c : Config}
    (good : Composite.GoodParts (kinds.map (sound abstracts A program π₀)) s ps)
    (all : Composite.AllContain (Part.Contains abstracts) ps c) :
    List.Forall₂ (fun k p => k.Contains p c.store) kinds ps := by
  induction kinds generalizing ps with
  | nil =>
    cases good
    exact .nil
  | cons k kinds ih =>
    cases good with
    | cons here rest =>
      obtain ⟨holds, all⟩ := List.forall_mem_cons.mp all
      exact .cons (contains_of_good here holds) (ih rest all)

end ValueKind

namespace Composite

variable {σ π : Type}

def ofValues (kinds : List ValueKind) (specialized : Bool) : Composite σ π :=
  ⟨Analysis.locations.onParts :: kinds.map ValueKind.component, specialized⟩

theorem ofComponents_values (kinds : List ValueKind) (specialized : Bool) :
    ofComponents (σ := σ) (π := π) (Analysis.locations.onParts :: kinds.map ValueKind.component)
      specialized = .ok (ofValues kinds specialized) := rfl

/-- Every execution ends in a reached state at its point and with its pending calls, each part of which
contains the values of the variables. The first part is the location. -/
theorem ofValues_sound (kinds : List ValueKind) (specialized divided : Bool) (program : Automaton)
    (limit : Nat) (π₀ : π) (shared : σ) (made checks : Nat) {store : CompositeStore σ}
    {r : ReachedSet CompositeState π} {report : RunReport}
    {y : Exploration (CompositeStore σ) CompositeState π}
    (started : ((ofValues kinds specialized).analysis.start program divided π₀).run
      ⟨shared, made + 1, checks⟩ = .ok (.ok r, store))
    (ran : ((ofValues kinds specialized).analysis.run program limit).run ⟨store, r⟩ =
      .ok (.ok report, y))
    (complete : report.incomplete = false) {c : Config}
    (reached : Config.Reached .machine program c) :
    ∃ e ∈ y.reached.statesAt c.point, e.stack = c.stack ∧
      List.Forall₂ (fun k p => k.Contains p c.store) kinds e.parts.tail := by
  let abstracts : PredicateState → Config → Prop := fun _ _ => True
  let first : SoundComponent (.any σ) (Part.Contains abstracts) .machine program π₀ :=
    (Analysis.locations_sound abstracts).component
  have locates : first.Locates := Analysis.locates abstracts
  have components : (ofValues kinds specialized).components =
      (first :: kinds.map (ValueKind.sound abstracts (.any σ) program π₀)).map (·.component) := by
    rw [List.map_cons, List.map_map]
    exact congrArg _ (List.map_congr_left fun k _ => (ValueKind.sound_component k).symm)
  obtain ⟨e, mem, stack, -, good, all⟩ := exists_state_of_reached components locates
    ⟨trivial, Nat.le_add_left 1 made⟩ started ran complete reached
  obtain ⟨p, ps, -, goodPs, parts⟩ := List.forall₂_cons_left_iff.mp good
  refine ⟨e, mem, stack, ?_⟩
  rw [parts] at all ⊢
  exact ValueKind.contains_of_goodParts goodPs (List.forall_mem_cons.mp all).2

def positiveProgram : Automaton where
  points := 3
  edges := [⟨⟨0⟩, ⟨1⟩, .assign (.var "x") (.const 1)⟩,
    ⟨⟨1⟩, ⟨2⟩, .assume (.compare .gt (.var "x") (.const 0)) true⟩]
  entries := .empty
  loopHeads := []
  entry := ⟨0⟩
  edges_inside := by decide

theorem reached_positive {s : Store} (values : ∀ x, Dialect.machine.value (s x)) :
    Config.Reached .machine positiveProgram ⟨⟨2⟩, s.set "x" 1, .empty⟩ := by
  have start : Config.Reached .machine positiveProgram ⟨⟨0⟩, s, .empty⟩ := .start ⟨rfl, values, rfl⟩
  have middle : Config.Reached .machine positiveProgram ⟨⟨1⟩, s.set "x" 1, .empty⟩ :=
    start.step List.mem_cons_self ⟨rfl, rfl, .assign (.const 1), .assign⟩
  have one : s.set "x" 1 "x" = 1 := Store.set_same s "x" 1
  have positive : (bit (Comparison.gt.holds (s.set "x" 1 "x") 0) != 0) = true := by
    rw [one]
    rfl
  exact middle.step (List.mem_cons_of_mem _ List.mem_cons_self)
    ⟨rfl, rfl, .assume (.compare (.var "x") (.const 0)) positive, .assume⟩

theorem ofValues_sound_positive :
    ∃ (r : ReachedSet CompositeState Unit) (store : CompositeStore Unit) (report : RunReport)
      (y : Exploration (CompositeStore Unit) CompositeState Unit),
      ((ofValues [.signs .join, .values] true).analysis.start positiveProgram true ()).run
        ⟨(), 1, 0⟩ = .ok (.ok r, store) ∧
      ((ofValues [.signs .join, .values] true).analysis.run positiveProgram 5).run ⟨store, r⟩ =
        .ok (.ok report, y) ∧
      report.incomplete = false ∧
      ∃ e ∈ y.reached.statesAt ⟨2⟩, e.stack = .empty ∧
        List.Forall₂ (fun k p => ValueKind.Contains k p (Store.set (fun _ => 7) "x" 1))
          [.signs .join, .values] e.parts.tail := by
  let c : Composite Unit Unit := ofValues [.signs .join, .values] true
  let r : ReachedSet CompositeState Unit := (ReachedSet.empty true).add
    ⟨1, [.location (.point ⟨0⟩), .sign .top, .explicit .top], .empty⟩ ()
  have finished : (match (c.analysis.run positiveProgram 5).run ⟨⟨(), 2, 0⟩, r⟩ with
      | .ok (.ok report, _) => !report.incomplete
      | _ => false) = true := by decide +kernel
  split at finished
  · rename_i report y ran
    have complete : report.incomplete = false := by simpa using finished
    have started : (c.analysis.start positiveProgram true ()).run ⟨(), 1, 0⟩ =
        .ok (.ok r, ⟨(), 2, 0⟩) := rfl
    have values : ∀ x : String, Dialect.machine.value ((fun _ => 7 : Store) x) := fun _ => rfl
    exact ⟨r, _, report, y, started, ran, complete,
      ofValues_sound [.signs .join, .values] true true positiveProgram 5 () () 0 0 started ran
        complete (reached_positive values)⟩
  · cases finished

end Composite

end ProgramAnalysis
