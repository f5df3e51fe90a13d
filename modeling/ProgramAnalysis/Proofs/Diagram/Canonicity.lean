import Mathlib.Logic.Function.Basic
import ProgramAnalysis.Diagram.Meaning

/-! Ordered diagrams are canonical: two references to one diagram that have the same truth value under
every valuation are the same reference. So whatever a function does not depend on is not tested at
its root, which is how the order of a result is known from its meaning alone. -/
namespace ProgramAnalysis

namespace Ref

theorem ext_of_index {r s : Ref} (index : r.index = s.index) (sign : r.isNegated = s.isNegated) :
    r = s := by
  cases r with
  | mk a =>
    cases s with
    | mk b =>
      simp only [Ref.index, isNegated, decide_eq_decide] at index sign
      congr
      omega

theorem isNegated_complementIf {r : Ref} (known : 1 ≤ r.index) (flag : Bool) :
    (r.complementIf flag).isNegated = (r.isNegated != flag) := by
  cases flag with
  | false => simp [complementIf]
  | true => simp [complementIf, Diagram.isNegated_neg known]

theorem complementIf_injective {r s : Ref} {flag : Bool}
    (same : r.complementIf flag = s.complementIf flag) : r = s := by
  cases flag with
  | false => exact same
  | true => simpa [complementIf] using congrArg Neg.neg same

end Ref

namespace Diagram

variable {d e : Diagram} {r f g : Ref} {n : Node} {v w : Valuation}

theorem has_neg : d.Has (-r) ↔ d.Has r := by simp [Has]

theorem has_one (d : Diagram) : d.Has .one := by
  simp only [Has, Ref.one, Ref.index_node]
  omega

theorem has_zero (d : Diagram) : d.Has .zero := has_neg.mpr d.has_one

theorem has_complementIf {flag : Bool} : d.Has (r.complementIf flag) ↔ d.Has r := by
  simp [Has]

theorem level_of_node? (inner : d.node? r = some n) : d.level r = n.var := by
  simp [level, inner]

theorem low_of_node? (inner : d.node? r = some n) :
    d.low r = n.low.complementIf r.isNegated := by
  simp [low, inner]

theorem high_of_node? (inner : d.node? r = some n) :
    d.high r = n.high.complementIf r.isNegated := by
  simp [high, inner]

@[simp] theorem level_complementIf (d : Diagram) (r : Ref) (flag : Bool) :
    d.level (r.complementIf flag) = d.level r := by
  cases flag <;> simp [Ref.complementIf, level]

theorem node?_isSome_of_has (has : d.Has r) (inner : 2 ≤ r.index) : ∃ n, d.node? r = some n := by
  have inside : r.index - 2 < d.nodes.size := by
    have := has.2
    omega
  refine ⟨d.nodes[r.index - 2], ?_⟩
  simp only [node?, show ¬ r.index < 2 by omega, if_false]
  exact Array.getElem?_eq_getElem inside

theorem eq_constant_of_terminal (has : d.Has r) (terminal : d.node? r = none) :
    r = .one ∨ r = .zero := by
  have small : r.index = 1 := by
    by_contra big
    obtain ⟨n, hn⟩ := node?_isSome_of_has has (by have := has.1; omega)
    rw [terminal] at hn
    cases hn
  cases sign : r.isNegated with
  | false => exact .inl (Ref.ext_of_index small sign)
  | true => exact .inr (Ref.ext_of_index small sign)

namespace Ordered

theorem low_known (ordered : d.Ordered) (has : d.Has r) : d.Has (d.low r) := by
  refine ⟨ordered.one_le_low has.1, ?_⟩
  unfold low
  split
  · rename_i inner
    have := index_lt_of_node? inner
    have := has.2
    simp only [index_complementIf]
    omega
  · exact has.2

theorem high_known (ordered : d.Ordered) (has : d.Has r) : d.Has (d.high r) := by
  refine ⟨ordered.one_le_high has.1, ?_⟩
  unfold high
  split
  · rename_i inner
    have := index_lt_of_node? inner
    have := has.2
    simp only [index_complementIf]
    omega
  · exact has.2

theorem level_lt_low (ordered : d.Ordered) (inner : d.node? r = some n) :
    d.level r < d.level (d.low r) := by
  have root := ordered.var_lt_low _ _ (getElem?_of_node? inner)
  rwa [level_of_node? inner, low_of_node? inner, level_complementIf]

theorem level_lt_high (ordered : d.Ordered) (inner : d.node? r = some n) :
    d.level r < d.level (d.high r) := by
  have root := ordered.var_lt_high _ _ (getElem?_of_node? inner)
  rwa [level_of_node? inner, high_of_node? inner, level_complementIf]

theorem level_le (ordered : d.Ordered) (r : Ref) : d.level r ≤ bottomLevel := by
  cases inner : d.node? r with
  | none => simp [level, inner]
  | some n =>
    have smaller := (weight_lt_of_node? inner).1
    exact Nat.le_of_lt (Nat.lt_of_lt_of_le (ordered.level_lt_low inner) (ordered.level_le (d.low r)))
termination_by r.weight

theorem level_lt_bottom (ordered : d.Ordered) (inner : d.node? r = some n) :
    d.level r < bottomLevel :=
  Nat.lt_of_lt_of_le (ordered.level_lt_low inner) (ordered.level_le _)

theorem eval_congr (ordered : d.Ordered) (r : Ref) (agree : ∀ x, d.level r ≤ x → v x = w x) :
    d.eval v r = d.eval w r := by
  cases inner : d.node? r with
  | none => rw [eval_of_terminal inner, eval_of_terminal inner]
  | some n =>
    have smaller := weight_lt_of_node? inner
    have atRoot : v n.var = w n.var := agree n.var (Nat.le_of_eq (level_of_node? inner))
    have onLow := ordered.eval_congr (d.low r) fun x hx =>
      agree x (Nat.le_trans (Nat.le_of_lt (ordered.level_lt_low inner)) hx)
    have onHigh := ordered.eval_congr (d.high r) fun x hx =>
      agree x (Nat.le_trans (Nat.le_of_lt (ordered.level_lt_high inner)) hx)
    rw [eval_of_node? inner, eval_of_node? inner, atRoot, onLow, onHigh]
termination_by r.weight

theorem eval_update (ordered : d.Ordered) {x : Nat} (below : x < d.level r) (b : Bool) :
    d.eval (Function.update v x b) r = d.eval v r :=
  ordered.eval_congr r fun y hy => Function.update_of_ne (by omega) b v

/-! ### Equal functions are equal references -/

theorem eval_low_of_false (ordered : d.Ordered) (inner : d.node? r = some n) (v : Valuation) :
    d.eval v (d.low r) = d.eval (Function.update v n.var false) r := by
  have below : n.var < d.level (d.low r) := level_of_node? inner ▸ ordered.level_lt_low inner
  rw [eval_of_node? inner, Function.update_self, ordered.eval_update below]
  rfl

theorem eval_high_of_true (ordered : d.Ordered) (inner : d.node? r = some n) (v : Valuation) :
    d.eval v (d.high r) = d.eval (Function.update v n.var true) r := by
  have below : n.var < d.level (d.high r) := level_of_node? inner ▸ ordered.level_lt_high inner
  rw [eval_of_node? inner, Function.update_self, ordered.eval_update below]
  rfl

theorem eval_low (ordered : d.Ordered) (r : Ref) (v : Valuation) :
    d.eval v (d.low r) = d.eval (Function.update v (d.var r) false) r := by
  cases inner : d.node? r with
  | none => simp only [low, inner, eval_of_terminal inner]
  | some n =>
    have var : d.var r = n.var := by simp only [var, inner]
    rw [ordered.eval_low_of_false inner, var]

theorem eval_high (ordered : d.Ordered) (r : Ref) (v : Valuation) :
    d.eval v (d.high r) = d.eval (Function.update v (d.var r) true) r := by
  cases inner : d.node? r with
  | none => simp only [high, inner, eval_of_terminal inner]
  | some n =>
    have var : d.var r = n.var := by simp only [var, inner]
    rw [ordered.eval_high_of_true inner, var]

theorem low_ne_high (inner : d.node? r = some n) : d.low r ≠ d.high r := by
  rw [low_of_node? inner, high_of_node? inner]
  exact fun same => (d.reduced _ _ (getElem?_of_node? inner)).low_ne_high
    (Ref.complementIf_injective same)

theorem isNegated_high (ordered : d.Ordered) (inner : d.node? r = some n) :
    (d.high r).isNegated = r.isNegated := by
  have known := ordered.has_high _ _ (getElem?_of_node? inner)
  have regular := (d.reduced _ _ (getElem?_of_node? inner)).high_regular
  rw [high_of_node? inner, Ref.isNegated_complementIf known, regular, Bool.false_bne]

theorem eq_of_children {m : Node} (ordered : d.Ordered) (innerF : d.node? f = some n)
    (innerG : d.node? g = some m) (var : n.var = m.var) (low : d.low f = d.low g)
    (high : d.high f = d.high g) : f = g := by
  have sign : f.isNegated = g.isNegated := by
    rw [← ordered.isNegated_high innerF, high, ordered.isNegated_high innerG]
  have nodes : n = m := by
    rw [low_of_node? innerF, low_of_node? innerG, sign] at low
    rw [high_of_node? innerF, high_of_node? innerG, sign] at high
    cases n
    cases m
    cases var
    cases Ref.complementIf_injective low
    cases Ref.complementIf_injective high
    rfl
  subst nodes
  have indexF := (d.unique_iff _ _).mpr (getElem?_of_node? innerF)
  have indexG := (d.unique_iff _ _).mpr (getElem?_of_node? innerG)
  have same : f.index - 2 = g.index - 2 := Option.some.inj (indexF.symm.trans indexG)
  have f2 := (index_lt_of_node? innerF).2.2
  have g2 := (index_lt_of_node? innerG).2.2
  exact Ref.ext_of_index (by omega) sign

/-- A root that is tested before the root of an equal function would be redundant. -/
theorem not_level_lt (ordered : d.Ordered) (innerF : d.node? f = some n)
    (same : ∀ v, d.eval v f = d.eval v g)
    (ih : (∀ v, d.eval v (d.low f) = d.eval v (d.high f)) → d.low f = d.high f) :
    ¬ d.level f < d.level g := by
  intro below
  rw [level_of_node? innerF] at below
  refine low_ne_high innerF (ih fun v => ?_)
  rw [ordered.eval_low_of_false innerF, ordered.eval_high_of_true innerF, same, same,
    ordered.eval_update below, ordered.eval_update below]

theorem eq_of_eval {f g : Ref} (ordered : d.Ordered) (hasF : d.Has f) (hasG : d.Has g)
    (same : ∀ v, d.eval v f = d.eval v g) : f = g := by
  cases innerF : d.node? f with
  | none =>
    cases innerG : d.node? g with
    | none =>
      have value := same fun _ => true
      rcases eq_constant_of_terminal hasF innerF with rfl | rfl <;>
        rcases eq_constant_of_terminal hasG innerG with rfl | rfl <;> simp_all
    | some m =>
      have smaller := weight_lt_of_node? innerG
      have below : d.level g < d.level f := by
        simpa [level, innerF] using ordered.level_lt_bottom innerG
      exact absurd below (ordered.not_level_lt innerG (fun v => (same v).symm)
        (ordered.eq_of_eval (ordered.low_known hasG) (ordered.high_known hasG)))
  | some n =>
    have smallerF := weight_lt_of_node? innerF
    have notF := ordered.not_level_lt innerF same
      (ordered.eq_of_eval (ordered.low_known hasF) (ordered.high_known hasF))
    cases innerG : d.node? g with
    | none => exact absurd (by simpa [level, innerG] using ordered.level_lt_bottom innerF) notF
    | some m =>
      have smallerG := weight_lt_of_node? innerG
      have notG := ordered.not_level_lt innerG (fun v => (same v).symm)
        (ordered.eq_of_eval (ordered.low_known hasG) (ordered.high_known hasG))
      have var : n.var = m.var := by
        rw [level_of_node? innerF, level_of_node? innerG] at notF notG
        omega
      refine ordered.eq_of_children innerF innerG var ?_ ?_
      · refine ordered.eq_of_eval (ordered.low_known hasF) (ordered.low_known hasG) fun v => ?_
        rw [ordered.eval_low_of_false innerF, ordered.eval_low_of_false innerG, var, same]
      · refine ordered.eq_of_eval (ordered.high_known hasF) (ordered.high_known hasG) fun v => ?_
        rw [ordered.eval_high_of_true innerF, ordered.eval_high_of_true innerG, var, same]
termination_by max f.weight g.weight

theorem var_of_eval (ordered : d.Ordered) (has : d.Has r) {x : Nat}
    (eval : ∀ v, d.eval v r = v x) : d.var r = x := by
  cases root : d.node? r with
  | none =>
    have off := eval fun _ => false
    have on := eval fun _ => true
    rw [eval_of_terminal root] at off on
    rw [off] at on
    cases on
  | some n =>
    rw [var, root]
    by_contra other
    have stays (v : Valuation) (b : Bool) : Function.update v n.var b x = v x :=
      Function.update_of_ne (Ne.symm other) b v
    refine low_ne_high root
      (ordered.eq_of_eval (ordered.low_known has) (ordered.high_known has) fun v => ?_)
    rw [ordered.eval_low_of_false root, ordered.eval_high_of_true root, eval, eval, stays, stays]

/-- The root of a function comes after every variable that the function does not depend on. -/
theorem lt_level (ordered : d.Ordered) (has : d.Has r) {k : Nat} (inner : k < bottomLevel)
    (independent : ∀ x ≤ k, ∀ v, d.eval (Function.update v x false) r =
      d.eval (Function.update v x true) r) : k < d.level r := by
  by_contra notLt
  cases root : d.node? r with
  | none => exact notLt (by simpa [level, root] using inner)
  | some n =>
    rw [level_of_node? root] at notLt
    refine low_ne_high root
      (ordered.eq_of_eval (ordered.low_known has) (ordered.high_known has) fun v => ?_)
    rw [ordered.eval_low_of_false root, ordered.eval_high_of_true root,
      independent n.var (by omega)]

end Ordered

/-! ### Growth -/

namespace Extends

theorem has (grown : e.Extends d) (has : d.Has r) : e.Has r := by
  have := grown.size_le
  exact ⟨has.1, by have := has.2; omega⟩

theorem var_eq (grown : e.Extends d) (has : d.Has r) : e.var r = d.var r := by
  simp only [var, grown.node?_eq has]

theorem level_eq (grown : e.Extends d) (has : d.Has r) : e.level r = d.level r := by
  simp only [level, grown.node?_eq has]

theorem eval_eq (grown : e.Extends d) (ordered : d.Ordered) (v : Valuation) (r : Ref)
    (has : d.Has r) : e.eval v r = d.eval v r := by
  cases inner : d.node? r with
  | none =>
    rw [eval_of_terminal ((grown.node?_eq has).trans inner), eval_of_terminal inner]
  | some n =>
    have smaller := weight_lt_of_node? inner
    rw [eval_of_node? ((grown.node?_eq has).trans inner), eval_of_node? inner,
      grown.low_eq has, grown.high_eq has,
      grown.eval_eq ordered v (d.low r) (ordered.low_known has),
      grown.eval_eq ordered v (d.high r) (ordered.high_known has)]
termination_by r.weight

end Extends

end Diagram

end ProgramAnalysis
