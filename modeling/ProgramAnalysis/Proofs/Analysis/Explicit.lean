import ProgramAnalysis.Proofs.Analysis.Parts
import ProgramAnalysis.Proofs.Numeric.Machine
import ProgramAnalysis.Proofs.Table.NameMap

/-! Known values lose nothing. What is computed from known values is what the program computes, and what
is learned from a condition holds wherever the condition does. -/
namespace ProgramAnalysis

namespace ExplicitState

/-- The variables of the store have their known values. -/
def Contains (st : ExplicitState) (s : Store) : Prop :=
  st.isBottom = false ∧ ∀ x v, st.value? x = some v → s x = v

variable {D : Dialect} {st st' : ExplicitState} {s t : Store} {x : String} {v w : Int}
  {o : Option Int} {a b e : Expr} {truth : Bool}

theorem Contains.known (holds : st.Contains s) : ∃ m, st = .known m := by
  cases st with
  | bottom => cases holds.1
  | known m => exact ⟨m, rfl⟩

theorem contains_top (s : Store) : top.Contains s := ⟨rfl, nofun⟩

theorem Contains.assign (holds : st.Contains s) (value : ∀ w, o = some w → v = w) :
    (st.assign x o).Contains (s.set x v) := by
  obtain ⟨m, rfl⟩ := holds.known
  cases o with
  | none =>
    refine ⟨rfl, fun y w found => ?_⟩
    have inside : (if y = x then none else m.get? y) = some w :=
      (NameMap.get?_erase m x y).symm.trans found
    split at inside
    · cases inside
    · rename_i other
      rw [Store.set_other v other]
      exact holds.2 y w inside
  | some u =>
    refine ⟨rfl, fun y w found => ?_⟩
    have inside : (if y = x then some u else m.get? y) = some w :=
      (NameMap.get?_insert m x y u).symm.trans found
    split at inside
    · rename_i same
      cases inside
      rw [same, Store.set_same]
      exact value u rfl
    · rename_i other
      rw [Store.set_other v other]
      exact holds.2 y w inside

theorem Contains.forget (holds : st.Contains s) (v : Int) :
    (st.assign x none).Contains (s.set x v) := holds.assign nofun

theorem Contains.learn (holds : st.Contains s) (value : ∀ w, o = some w → s x = w) :
    (st.assign x o).Contains s := by
  have learned := holds.assign (x := x) value
  rwa [Store.set_self] at learned

theorem Contains.le (holds : st.Contains s) (le : st.le st' = true) : st'.Contains s := by
  obtain ⟨m, rfl⟩ := holds.known
  cases st' with
  | bottom => cases le
  | known n =>
    refine ⟨rfl, fun x v found => holds.2 x v ?_⟩
    exact of_decide_eq_true (List.all_eq_true.mp le _ (NameMap.mem_of_get? found))

/-! ### Expressions and conditions -/

theorem logic_sound {c : Connective} {x y : Int} {p q : Option Int}
    (left : ∀ w, p = some w → x = w) (right : ∀ w, q = some w → y = w)
    (found : logic c p q = some w) :
    bit (if (x != 0) = c.unit then y != 0 else !c.unit) = w := by
  -- An unknown left side may still be decided by the right one.
  cases p with
  | some x' =>
    cases left x' rfl
    simp only [logic] at found
    split at found
    · rename_i undecided
      obtain ⟨y', same, rfl⟩ := Option.map_eq_some_iff.mp found
      rw [if_pos undecided, right y' same]
      rfl
    · rename_i decides
      cases found
      rw [if_neg decides]
      rfl
  | none =>
    cases q with
    | none => cases found
    | some y' =>
      cases right y' rfl
      simp only [logic] at found
      split at found
      · cases found
      · rename_i decides
        cases found
        have other : (y != 0) = !c.unit := Bool.eq_not.mpr decides
        rw [other, ite_self]
        rfl

theorem logic_decided {c : Connective} {x : Int} {p q : Option Int}
    (left : ∀ w, p = some w → x = w) (decides : (x != 0) = !c.unit)
    (found : logic c p q = some w) : bit (!c.unit) = w := by
  have differs : ¬ (x != 0) = c.unit := Bool.eq_not.mp decides
  cases p with
  | some x' =>
    cases left x' rfl
    simp only [logic, if_neg differs] at found
    cases found
    rfl
  | none =>
    cases q with
    | none => cases found
    | some y =>
      simp only [logic] at found
      split at found
      · cases found
      · cases found
        rfl

theorem eval_sound (faithful : e.Faithful D) (holds : st.Contains s) (value : e.Evaluates D s v)
    (found : st.eval e = some w) : v = w := by
  induction value generalizing w with
  | var x => exact holds.2 x w found
  | const c =>
    cases found
    rfl
  | nondet => cases found
  | deref => cases found
  | neg operand result ih =>
    obtain ⟨x, same, negated⟩ := Option.bind_eq_some_iff.mp found
    cases ih faithful.2 same
    exact faithful.1 _ _ _ result negated
  | not operand ih =>
    obtain ⟨x, same, rfl⟩ := Option.map_eq_some_iff.mp found
    rw [ih faithful same]
    rfl
  | bitNot operand ih =>
    obtain ⟨x, same, rfl⟩ := Option.map_eq_some_iff.mp found
    rw [ih faithful.2 same]
    exact faithful.1 x
  | @arith op a b x y v left right result ihLeft ihRight =>
    simp only [eval] at found
    split at found
    · rename_i x' y' sameX sameY
      cases ihLeft faithful.2.1 sameX
      cases ihRight faithful.2.2 sameY
      exact faithful.1 _ _ _ _ result found
    · cases found
  | compare left right ihLeft ihRight =>
    simp only [eval] at found
    split at found
    · rename_i x' y' sameX sameY
      cases ihLeft faithful.1 sameX
      cases ihRight faithful.2 sameY
      exact Option.some.inj found
    · cases found
  | logic left right ihLeft ihRight =>
    exact logic_sound (fun _ => ihLeft faithful.1) (fun _ => ihRight faithful.2) found
  | decided left decides ih => exact logic_decided (fun _ => ih faithful.1) decides found

theorem Contains.equate (holds : st.Contains s) (faithfulA : a.Faithful D)
    (faithfulB : b.Faithful D) (left : a.Evaluates D s v) (right : b.Evaluates D s v) :
    (st.equate a b).Contains s := by
  unfold ExplicitState.equate
  split
  · rename_i found
    cases left
    refine holds.learn fun w same => ?_
    cases same
    exact eval_sound faithfulB holds right found
  · rename_i found _
    cases right
    refine holds.learn fun w same => ?_
    cases same
    exact eval_sound faithfulA holds left found
  · exact holds

theorem Contains.refine (holds : st.Contains s) (faithful : e.Faithful D)
    (value : e.Evaluates D s v) (agrees : (v != 0) = truth) : (st.refine e truth).Contains s := by
  induction e generalizing st truth v with
  | not c ih =>
    cases value with
    | not operand => exact ih holds faithful operand (by rw [← agrees, bit_ne_zero]; rfl)
  | compare c a b =>
    cases value with
    | @compare _ _ _ x y left right =>
      rw [bit_ne_zero] at agrees
      cases c with
      | eq =>
        cases truth with
        | true =>
          cases (of_decide_eq_true agrees : x = y)
          exact holds.equate faithful.1 faithful.2 left right
        | false => exact holds
      | ne =>
        cases truth with
        | true => exact holds
        | false =>
          cases (not_not.mp (of_decide_eq_false agrees) : x = y)
          exact holds.equate faithful.1 faithful.2 left right
      | _ => exact holds
  | logic c a b ihA ihB =>
    -- Only where both operands are determined does the condition tell something of each.
    by_cases unit : truth = c.unit
    · obtain ⟨x, y, left, right, agreesA, agreesB⟩ := value.sides (agrees.trans unit)
      subst unit
      cases c with
      | and => exact ihB (ihA holds faithful.1 left agreesA) faithful.2 right agreesB
      | or => exact ihB (ihA holds faithful.1 left agreesA) faithful.2 right agreesB
    · cases c with
      | and =>
        cases truth with
        | true => exact absurd rfl unit
        | false => exact holds
      | or =>
        cases truth with
        | true => exact holds
        | false => exact absurd rfl unit
  | var x =>
    cases value
    cases truth with
    | true => exact holds
    | false =>
      refine holds.learn fun w same => ?_
      cases same
      simpa using agrees
  | _ => exact holds

/-! ### Actions -/

/-- Arguments are evaluated before any parameter is set. -/
theorem Contains.setAll (holds : st.Contains s) {args : List Expr} {vs : List Int}
    (faithful : ∀ e ∈ args, e.Faithful D) (arguments : List.Forall₂ (Expr.Evaluates D s) args vs)
    {params : List String} {acc : ExplicitState} (inside : acc.Contains t) :
    ((params.zip args).foldl (fun acc (x, e) => acc.assign x (st.eval e)) acc).Contains
      (t.setAll (params.zip vs)) := by
  induction arguments generalizing params acc t with
  | nil => simpa [Store.setAll] using inside
  | cons value _ ih =>
    cases params with
    | nil => simpa [Store.setAll] using inside
    | cons x params =>
      obtain ⟨first, rest⟩ := List.forall_mem_cons.mp faithful
      exact ih rest (inside.assign fun w => eval_sound first holds value)

theorem after_contains {act : Action} {next : Option ExplicitState}
    (faithful : ∀ e ∈ act.expressions, e.Faithful D) (holds : st.Contains s)
    (acts : act.Acts D s t) (after : st.after act = .ok next) :
    ∃ f, next = some f ∧ f.Contains t := by
  cases acts with
  | skip =>
    cases after
    exact ⟨_, rfl, holds⟩
  | declare any =>
    cases after
    exact ⟨_, rfl, holds.forget _⟩
  | @init x e v value =>
    cases after
    have here : e.Faithful D := faithful e (List.mem_singleton_self e)
    exact ⟨_, rfl, holds.assign fun w => eval_sound here holds value⟩
  | @assign x e v value =>
    cases after
    have here : e.Faithful D := faithful e (List.mem_cons_of_mem _ (List.mem_singleton_self e))
    exact ⟨_, rfl, holds.assign fun w => eval_sound here holds value⟩
  | store any =>
    cases after
    exact ⟨_, rfl, contains_top t⟩
  | @assume e truth v value agrees =>
    have here : e.Faithful D := faithful e (List.mem_singleton_self e)
    simp only [ExplicitState.after] at after
    split at after
    · rename_i w found
      -- The state knows the value of the condition, so the condition has no other value.
      cases eval_sound here holds value found
      rw [if_pos agrees] at after
      cases after
      exact ⟨_, rfl, holds⟩
    · cases after
      exact ⟨_, rfl, holds.refine here value agrees⟩
  | call arguments arity =>
    simp only [ExplicitState.after, if_pos arity] at after
    cases after
    exact ⟨_, rfl, holds.setAll faithful arguments holds⟩
  | ignore any kept =>
    cases after
    exact ⟨_, rfl, holds.forget _⟩
  | receive any kept =>
    cases after
    exact ⟨_, rfl, (holds.assign (holds.2 _)).forget _⟩
  | @receiveAt f _ _ _ any =>
    cases after
    exact ⟨_, rfl, (contains_top t).learn nofun⟩
  | @yield f e v value =>
    cases after
    have here : e.Faithful D := faithful e (List.mem_singleton_self e)
    exact ⟨_, rfl, holds.assign fun w => eval_sound here holds value⟩
  | finish =>
    cases after
    refine ⟨_, rfl, holds.assign fun w same => ?_⟩
    cases same
    rfl

theorem successors_contain {edge : Edge} {next : List ExplicitState}
    (faithful : ∀ e ∈ edge.action.expressions, e.Faithful D)
    (found : st.successors edge = .ok next) (holds : st.Contains s)
    (acts : edge.action.Acts D s t) : ∃ f, next = [f] ∧ f.Contains t := by
  obtain ⟨m, rfl⟩ := holds.known
  simp only [successors] at found
  split at found
  · rename_i r after
    obtain ⟨f, rfl, inside⟩ := after_contains faithful holds acts after
    cases found
    exact ⟨f, rfl, inside⟩
  · cases found

end ExplicitState

/-! ### The analysis -/

variable {σ π : Type} {A : Ambient σ} {program : Automaton} {π₀ : π}

open Ambient (keeps_pure)
open Analysis (keeps_ofExcept)

theorem Analysis.values_sound (abstracts : PredicateState → Config → Prop) :
    (values : Analysis σ ExplicitState π).SoundSeen PartKind.toPart A
      (Part.Contains abstracts) .machine program π₀ fun _ _ => True where
  good_mono _ _ := trivial
  same _ _ equal holds := (of_decide_eq_true equal) ▸ holds
  initial valid := keeps_pure valid ⟨trivial, fun c _ => ExplicitState.contains_top c.store⟩
  successors := by
    intro s e edge valid _ _
    refine keeps_ofExcept valid fun next found => ⟨fun _ _ => trivial, fun c c' holds follows => ?_⟩
    obtain ⟨f, rfl, inside⟩ :=
      ExplicitState.successors_contain (fun e _ => e.faithful_machine) found holds follows.acts
    exact ⟨f, List.mem_singleton_self f, inside⟩
  strengthen valid _ := keeps_pure valid trivial
  merge valid _ _ := keeps_pure valid ⟨trivial, fun _ h => h⟩
  isBottom := by
    intro s e valid _
    refine keeps_pure valid fun yes c holds => ?_
    obtain ⟨m, rfl⟩ := ExplicitState.Contains.known holds
    cases yes
  covers := by
    intro s e f valid _ _
    exact keeps_pure valid fun yes c holds => ExplicitState.Contains.le holds yes

end ProgramAnalysis
