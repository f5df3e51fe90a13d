import ProgramAnalysis.Proofs.Analysis.Explicit
import ProgramAnalysis.Proofs.Analysis.Sign

/-! One edge of the program, for each of the two analyses of values on its own. A store that a state
contains is followed along the edge by one of the successors, and what is computed of an expression in
the state is true of all values that the expression may have in the store. -/
namespace ProgramAnalysis

def Edge.guarded (condition : Expr) : Edge := ⟨⟨0⟩, ⟨1⟩, .assume condition true⟩

namespace SignState

/-- A successor keeps the store also when the known values beside it narrow it. -/
theorem transfer_sound {st : SignState} {s : Store} (holds : st.Contains s) :
    (∀ (e : Expr) (v : Int), e.Evaluates .machine s v → (st.eval e).containsInt v = true) ∧
    ∀ (edge : Edge) (t : Store) (next : List SignState), edge.action.Acts .machine s t →
      st.successors edge = .ok next →
      ∃ f ∈ next, f.Contains t ∧ ∀ siblings : List Part,
        (∀ known, Part.first? ExplicitState siblings = some known → known.Contains t) →
        match Analysis.strengthenSigns f siblings with
        | .unchanged => True
        | .replaced g => g.Contains t
        | .infeasible => False := by
  refine ⟨fun e v value => eval_contains holds value, fun edge t next acts found => ?_⟩
  obtain ⟨f, mem, inside⟩ := successors_contain found holds acts
  refine ⟨f, mem, inside, fun siblings contained => ?_⟩
  refine Analysis.strengthenSigns_contains inside fun known first e entry => ?_
  exact (contained known first).2 _ _ (NameMap.get?_of_mem entry)

/-- Both operands are variables, and each restricts the other. -/
theorem transfer_sound_between :
    let s : Store := fun x => if x = "x" then 3 else 0
    let condition : Expr := .logic .and (.compare .lt (.var "y") (.var "x")) (.not (.var "y"))
    let st : SignState := SignState.top.set "y" .nonNeg
    let next : SignState := (SignState.top.set "x" .pos).set "y" .null
    st.successors (.guarded condition) = .ok [next] ∧ (st.eval condition).containsInt 1 = true ∧
    next.Contains s ∧ Analysis.strengthenSigns next [.explicit (.known (NameMap.insert ∅ "z" 0))] =
      .replaced (next.set "z" .null) ∧ (next.set "z" .null).Contains s := by
  intro s condition st next
  have holds : st.Contains s := by
    refine (contains_top s).narrow ?_
    exact Sign.containsInt_nonNeg.mpr (by decide)
  have found : st.successors (.guarded condition) = .ok [next] := by decide
  have less : (Expr.compare .lt (.var "y") (.var "x")).Evaluates .machine s 1 :=
    .compare (.var "y") (.var "x")
  have value : condition.Evaluates .machine s 1 := .logic less (.not (.var "y"))
  have narrowed : Analysis.strengthenSigns next [.explicit (.known (NameMap.insert ∅ "z" 0))] =
      .replaced (next.set "z" .null) := by rfl
  obtain ⟨evaluates, follows⟩ := transfer_sound holds
  obtain ⟨f, mem, inside, beside⟩ := follows (.guarded condition) s [next] (.assume value rfl) found
  cases List.mem_singleton.mp mem
  refine ⟨found, evaluates condition 1 value, inside, narrowed, ?_⟩
  have known : (ExplicitState.top.assign "z" (some 0)).Contains s :=
    (ExplicitState.contains_top s).learn fun w same => by
      cases same
      rfl
  have agreed := beside [.explicit (.known (NameMap.insert ∅ "z" 0))] fun e first => by
    cases first
    exact known
  rwa [narrowed] at agreed

end SignState

namespace ExplicitState

theorem transfer_agrees {st : ExplicitState} {s : Store} (known : st.isBottom = false)
    (values : ∀ x v, st.value? x = some v → s x = v) :
    (∀ (edge : Edge) (t : Store) (next : List ExplicitState), edge.action.Acts .machine s t →
      st.successors edge = .ok next →
      ∃ f ∈ next, f.isBottom = false ∧ ∀ x v, f.value? x = some v → t x = v) ∧
    ∀ (e : Expr) (v w : Int), st.eval e = some v → e.Evaluates .machine s w → w = v := by
  have holds : st.Contains s := ⟨known, values⟩
  refine ⟨fun edge t next acts found => ?_, fun e v w found value => ?_⟩
  · obtain ⟨f, rfl, inside⟩ :=
      successors_contain (fun e _ => e.faithful_machine) found holds acts
    exact ⟨f, List.mem_singleton_self f, inside⟩
  · exact eval_sound e.faithful_machine holds value found

/-- What the left side of the condition tells of a variable serves the right side. -/
theorem transfer_agrees_repeated :
    let s : Store := fun _ => 2
    let condition : Expr := .not (.logic .or (.compare .ne (.var "x") (.var "y"))
      (.compare .ne (.var "z") (.arith .add (.var "x") (.const 0))))
    let st : ExplicitState := ExplicitState.top.assign "y" (some 2)
    let next : ExplicitState := (st.assign "x" (some 2)).assign "z" (some 2)
    st.successors (.guarded condition) = .ok [next] ∧
    (∀ x v, next.value? x = some v → s x = v) ∧
    ∀ w, (Expr.arith .shl (.var "y") (.const 63)).Evaluates .machine s w → w = 0 := by
  intro s condition st next
  have values : ∀ x v, st.value? x = some v → s x = v :=
    ((contains_top s).learn fun w same => by
      cases same
      rfl).2
  have found : st.successors (.guarded condition) = .ok [next] := by decide
  have sum : (Expr.arith .add (.var "x") (.const 0)).Evaluates .machine s 2 :=
    .arith (.var "x") (.const 0) rfl
  have value : condition.Evaluates .machine s 1 :=
    .not (.logic (.compare (.var "x") (.var "y")) (.compare (.var "z") sum))
  have known : st.isBottom = false := rfl
  obtain ⟨follows, evaluates⟩ := transfer_agrees known values
  obtain ⟨f, mem, -, agrees⟩ := follows (.guarded condition) s [next] (.assume value rfl) found
  cases List.mem_singleton.mp mem
  exact ⟨found, agrees, fun w value => evaluates _ 0 w rfl value⟩

end ExplicitState

end ProgramAnalysis
