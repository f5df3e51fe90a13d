import ProgramAnalysis.Diagram.Quantify
import ProgramAnalysis.Proofs.Diagram.Connectives

/-! Existential quantification. The cofactors of a root before the quantified variable are quantified on
their own; what becomes of them still comes after the root, because quantification brings no new
dependence in. -/
namespace ProgramAnalysis

/-- A function where the variable `x` may have either value. -/
def Valuation.quantify (x : Nat) (m : Valuation → Bool) (v : Valuation) : Bool :=
  m (Function.update v x false) || m (Function.update v x true)

namespace Diagram

open Checked (Ensures)
open ProgramAnalysis.Valuation (quantify)

variable {d e : Diagram} {f r : Ref} {x k : Nat}

theorem Ordered.quantify_of_lt (ordered : d.Ordered) (below : x < d.level f) (v : Valuation) :
    quantify x (d.eval · f) v = d.eval v f := by
  simp only [quantify, ordered.eval_update below, Bool.or_self]

theorem quantify_cofactors {n : Node} (inner : d.node? f = some n) (later : n.var < x)
    (v : Valuation) : quantify x (d.eval · f) v =
      if v n.var then quantify x (d.eval · (d.high f)) v else quantify x (d.eval · (d.low f)) v := by
  have root (b : Bool) : Function.update v x b n.var = v n.var :=
    Function.update_of_ne (Nat.ne_of_lt later) b v
  simp only [quantify, eval_of_node? inner, root]
  cases v n.var <;> rfl

/-- Quantification brings no new dependence in. -/
theorem IgnoresUpTo.quantify {m : Valuation → Bool} (ignores : IgnoresUpTo k m) (before : k < x) :
    IgnoresUpTo k (quantify x m) := by
  intro y le v b
  have other : y ≠ x := Nat.ne_of_lt (Nat.lt_of_le_of_lt le before)
  simp only [Valuation.quantify, Function.update_comm other, ignores y le]

theorem Ordered.select_children (ordered : d.Ordered) (top : d.level f = x) (small : x < bottomLevel)
    (v : Valuation) : d.select v (d.low f) .one (d.high f) = quantify x (d.eval · f) v := by
  cases inner : d.node? f with
  | none =>
    simp only [level, inner] at top
    omega
  | some n =>
    have var : n.var = x := by rw [← level_of_node? inner, top]
    rw [select, eval_one, ordered.eval_low_of_false inner, ordered.eval_high_of_true inner, var]
    exact (Bool.cond_eq_ite ..).symm.trans (Bool.cond_true_left ..)

theorem Gives.answers_exists (gives : d.Gives e r (quantify x (d.eval · f))) (valid : d.Valid)
    (has : d.Has f) : e.Answers (.exists f x) r := by
  refine ⟨⟨gives.grows.has has, gives.has⟩, fun v => (gives.eval v).trans ?_⟩
  rw [gives.grows.nodes.eval_valid valid has, gives.grows.nodes.eval_valid valid has]
  rfl

/-- Quantification makes the nodes of its result, as far as they are missing. -/
theorem existsVar_builds {d : Diagram} {f : Ref} {S : (Valuation → Bool) → Prop} (valid : d.Valid)
    (has : d.Has f) (nonzero : x ≠ 0) (small : x < bottomLevel)
    (needs : ∀ k, Cofactor (quantify x (d.eval · f)) k → S k) :
    Ensures (existsVar f x) d (d.Exhausts S) fun r e =>
      d.Gives e r (quantify x (d.eval · f)) ∧ d.Builds S e := by
  have ordered := valid.ordered
  rw [existsVar, if_neg nonzero, Checked.ensures_bind, Checked.ensures_get]
  dsimp only
  split
  · rename_i below
    exact ⟨⟨.refl valid, has, fun v => (ordered.quantify_of_lt below v).symm⟩,
      .of_size valid (.refl d) (Nat.le_refl _)⟩
  rename_i notBelow
  rw [Checked.ensures_bind]
  apply (remembered?_ensures valid _).mono
  rintro answer d₁ ⟨⟨grown, nodes⟩, known⟩
  have begun : d.Builds S d₁ := .of_size grown.valid grown.nodes (nodes ▸ Nat.le_refl _)
  -- The recursion reads the children in `d₁`, where they have the functions that they have in `d`.
  have same (g : Ref) (hasG : d.Has g) :
      quantify x (d₁.eval · g) = quantify x (d.eval · g) := by
    funext v
    simp only [quantify, grown.nodes.eval_valid valid hasG]
  split
  · rename_i answer r
    obtain ⟨⟨-, hasR⟩, eval⟩ := known r rfl
    exact ⟨⟨grown, hasR, fun v => (eval v).trans (congrFun (same f has) v)⟩, begun⟩
  have hasLow := ordered.low_known has
  have hasHigh := ordered.high_known has
  split
  · rename_i top
    have split (v : Valuation) :
        d₁.select v (d.low f) .one (d.high f) = quantify x (d.eval · f) v := by
      rw [← ordered.select_children top small]
      exact grown.nodes.select_eq ordered hasLow d.has_one hasHigh v
    rw [Checked.ensures_bind]
    apply (ite_builds grown.valid (grown.has hasLow) d₁.has_one (grown.has hasHigh) fun k of =>
      needs k (by simpa only [split] using of)).imp _ fun _ exhausts => exhausts.after begun
    rintro r e ⟨gives, builds⟩
    have whole := gives.after grown split
    rw [Checked.ensures_bind]
    exact remember_gives whole (begun.trans builds) (whole.answers_exists valid has)
  rename_i notTop
  split
  · rename_i terminal
    simp only [level, terminal] at notBelow
    omega
  · rename_i n inner
    have smaller := weight_lt_of_node? inner
    have level := level_of_node? inner
    rw [level] at notBelow notTop ⊢
    have later : n.var < x := by omega
    have root := getElem?_of_node? inner
    have inUse : n.var ≤ d₁.vars := Nat.le_trans (valid.var_le _ _ root) (Nat.le_of_eq grown.vars.symm)
    -- The results are at roots that the recursion chose. That these come after the variable of `f` is
    -- known from their functions only.
    have ignoresLow := (ordered.ignoresUpTo (level ▸ ordered.level_lt_low inner)).quantify later
    have ignoresHigh := (ordered.ignoresUpTo (level ▸ ordered.level_lt_high inner)).quantify later
    apply (join_builds (d.reduced _ _ root).var_ne_zero (Nat.lt_trans later small) inUse ignoresLow
      ignoresHigh (quantify_cofactors inner later) needs ?_ ?_ ?_).weaken
        fun _ exhausts => exhausts.after begun
    · intro needsLow
      simp only [← same _ hasLow] at needsLow ⊢
      exact existsVar_builds grown.valid (grown.has hasLow) nonzero small needsLow
    · intro d₂ grows needsHigh
      have whole := grown.trans grows
      have sameHigh : quantify x (d₂.eval · (d.high f)) = quantify x (d.eval · (d.high f)) := by
        funext v
        simp only [quantify, whole.nodes.eval_valid valid hasHigh]
      rw [← sameHigh] at needsHigh ⊢
      exact existsVar_builds whole.valid (whole.has hasHigh) nonzero small needsHigh
    · intro r e made builds
      have gives := made.after grown fun _ => rfl
      rw [Checked.ensures_bind]
      exact remember_gives gives (begun.trans builds) (gives.answers_exists valid has)
termination_by f.weight

theorem Builds.existsVar {d₀ : Diagram} {S : (Valuation → Bool) → Prop} {m : Valuation → Bool}
    (begun : d₀.Builds S d) (has : d.Has f) (nonzero : x ≠ 0) (small : x < bottomLevel)
    (same : ∀ v, quantify x (d.eval · f) v = m v) (needs : ∀ k, Cofactor m k → S k) :
    Ensures (existsVar f x) d (d₀.Exhausts S) fun r e => d.Gives e r m ∧ d₀.Builds S e := by
  obtain rfl : quantify x (d.eval · f) = m := funext same
  exact begun.after (existsVar_builds begun.valid has nonzero small needs)

end Diagram

end ProgramAnalysis
