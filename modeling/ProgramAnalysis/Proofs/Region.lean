import ProgramAnalysis.Proofs.Diagram.Room
import ProgramAnalysis.Proofs.Diagram.Support
import ProgramAnalysis.Region

/-! Operations on regions, by the truth values of their functions. The node of a region variable is known
from its function, so it is found again where it was made. -/
namespace ProgramAnalysis

open Checked (Ensures)
open Diagram (Cofactor OnlyOn)

namespace Region

variable {d₀ d e : Diagram} {a b r : Region} {m : Valuation → Bool} {S : (Valuation → Bool) → Prop}

/-- The functions of the nodes of a diagram for a region with that meaning. -/
def Requires (meaning : Valuation → Prop) (k : Valuation → Bool) : Prop :=
  ∃ m : Valuation → Bool, (∀ v, m v = true ↔ meaning v) ∧ Cofactor m k

theorem Requires.congr {meaning meaning' : Valuation → Prop} {k : Valuation → Bool}
    (requires : Requires meaning k) (same : ∀ v, meaning v ↔ meaning' v) : Requires meaning' k := by
  obtain ⟨m, means, of⟩ := requires
  exact ⟨m, fun v => (means v).trans (same v), of⟩

theorem Requires.onlyOn {xs : Finset Nat} {meaning : Valuation → Prop} {k : Valuation → Bool}
    (requires : Requires meaning k)
    (same : ∀ v w : Valuation, (∀ x ∈ xs, v x = w x) → (meaning v ↔ meaning w)) : OnlyOn xs k := by
  obtain ⟨m, means, of⟩ := requires
  have only : OnlyOn xs m := fun v w agree => by
    rw [Bool.eq_iff_iff, means, means]
    exact same v w agree
  exact only.cofactor of

theorem Requires.cofactor {meaning : Valuation → Prop} [DecidablePred meaning] {k : Valuation → Bool}
    (requires : Requires meaning k) : Cofactor (fun v => decide (meaning v)) k := by
  obtain ⟨m, means, of⟩ := requires
  have same : m = fun v => decide (meaning v) := funext fun v => by
    rw [Bool.eq_iff_iff, means, decide_eq_true_iff]
  exact same ▸ of

theorem and_ensures (begun : d₀.Builds S d) (hasA : d.Has a.ref) (hasB : d.Has b.ref)
    (same : ∀ v, (d.eval v a.ref && d.eval v b.ref) = m v) (needs : ∀ k, Cofactor m k → S k) :
    Ensures (a.and b) d (d₀.Exhausts S) fun r e => d.Gives e r.ref m ∧ d₀.Builds S e := by
  unfold Region.and
  rw [Checked.ensures_bind]
  exact begun.and hasA hasB same needs

theorem or_ensures (begun : d₀.Builds S d) (hasA : d.Has a.ref) (hasB : d.Has b.ref)
    (same : ∀ v, (d.eval v a.ref || d.eval v b.ref) = m v) (needs : ∀ k, Cofactor m k → S k) :
    Ensures (a.or b) d (d₀.Exhausts S) fun r e => d.Gives e r.ref m ∧ d₀.Builds S e := by
  unfold Region.or
  rw [Checked.ensures_bind]
  exact begun.or hasA hasB same needs

/-- What a conjunction gives, whatever nodes it needs. -/
theorem and_gives (valid : d.Valid) (hasA : d.Has a.ref) (hasB : d.Has b.ref) :
    Ensures (a.and b) d (fun _ => True) fun r e =>
      d.Gives e r.ref fun v => d.eval v a.ref && d.eval v b.ref :=
  (and_ensures (S := fun _ => True) (.refl valid) hasA hasB (fun _ => rfl) fun _ _ => trivial).imp
    (fun _ _ => And.left) fun _ _ => trivial

theorem eval_not (valid : d.Valid) (has : d.Has a.ref) (v : Valuation) :
    d.eval v a.not.ref = !d.eval v a.ref := valid.ordered.eval_neg v a.ref has.1

theorem has_not (has : d.Has a.ref) : d.Has a.not.ref := Diagram.has_neg.mpr has

theorem eval_literal (valid : d.Valid) (has : d.Has a.ref) (value : Bool) (v : Valuation) :
    d.eval v (if value then a else a.not).ref = true ↔ d.eval v a.ref = value := by
  cases value with
  | true => exact Iff.rfl
  | false => simp [eval_not valid has]

theorem has_literal (has : d.Has a.ref) (value : Bool) :
    d.Has (if value then a else a.not).ref := by
  cases value with
  | true => exact has
  | false => exact has_not has

theorem top_and (r : Region) : Region.top.and r = pure r := by
  have known : Diagram.and .one r.ref = pure r.ref := by
    rw [Diagram.and, Diagram.ite]
    split
    · rename_i form
      cases form
      rfl
    · rename_i form
      cases form
  rw [Region.and, show Region.top.ref = .one from rfl, known]
  rfl

theorem eq_iff (valid : d.Valid) (hasA : d.Has a.ref) (hasR : d.Has r.ref) :
    a = r ↔ ∀ v, d.eval v a.ref = true ↔ d.eval v r.ref = true := by
  constructor
  · rintro rfl v
    exact Iff.rfl
  · intro same
    have equal := valid.ordered.eq_of_eval hasA hasR fun v => Bool.eq_iff_iff.mpr (same v)
    exact congrArg Region.mk equal

theorem isTrue_iff (valid : d.Valid) (has : d.Has r.ref) :
    r.isTrue = true ↔ ∀ v, d.eval v r.ref = true := by
  rw [isTrue, decide_eq_true_iff]
  constructor
  · intro one v
    rw [one, Diagram.eval_one]
  · intro always
    apply valid.ordered.eq_of_eval has (Diagram.has_one d)
    exact fun v => (always v).trans (Diagram.eval_one d v).symm

theorem isFalse_iff (valid : d.Valid) (has : d.Has r.ref) :
    r.isFalse = true ↔ ∀ v, d.eval v r.ref = false := by
  rw [isFalse, decide_eq_true_iff]
  constructor
  · intro zero v
    rw [zero, Diagram.eval_zero]
  · intro never
    apply valid.ordered.eq_of_eval has (Diagram.has_zero d)
    exact fun v => (never v).trans (Diagram.eval_zero d v).symm

/-- A region with a given meaning over a grown diagram. -/
structure Reads (d e : Diagram) (r : Region) (meaning : Valuation → Prop) : Prop where
  grows : d.Grows e
  has : e.Has r.ref
  eval : ∀ v, e.eval v r.ref = true ↔ meaning v

theorem Reads.imp {meaning meaning' : Valuation → Prop} (reads : Reads d e r meaning)
    (same : ∀ v, meaning v ↔ meaning' v) : Reads d e r meaning' :=
  ⟨reads.grows, reads.has, fun v => (reads.eval v).trans (same v)⟩

theorem Reads.mono {e' : Diagram} {meaning : Valuation → Prop} (reads : Reads d e r meaning)
    (grown : e.Grows e') : Reads d e' r meaning :=
  ⟨reads.grows.trans grown, grown.has reads.has, fun v => by
    rw [grown.nodes.eval_valid reads.grows.valid reads.has, reads.eval]⟩

theorem Reads.trans {e' : Diagram} {meaning meaning' : Valuation → Prop}
    (reads : Reads d e a meaning) (next : Reads e e' r meaning') : Reads d e' r meaning' :=
  ⟨reads.grows.trans next.grows, next.has, next.eval⟩

theorem Reads.after {d' : Diagram} {meaning : Valuation → Prop} (reads : Reads d' e r meaning)
    (grown : d.Grows d') : Reads d e r meaning := ⟨grown.trans reads.grows, reads.has, reads.eval⟩

/-- Later there is still only one region with that meaning. -/
theorem Reads.eq {d' e' : Diagram} {meaning meaning' : Valuation → Prop} (reads : Reads d e a meaning)
    (again : Reads d' e' r meaning') (later : e.Grows d') (same : ∀ v, meaning' v ↔ meaning v) :
    r = a := by
  have there := reads.mono (later.trans again.grows)
  apply (eq_iff again.grows.valid again.has there.has).mpr
  intro v
  rw [again.eval, there.eval, same]

theorem reads_self (valid : d.Valid) (has : d.Has r.ref) : Reads d d r fun v => d.eval v r.ref = true :=
  ⟨.refl valid, has, fun _ => Iff.rfl⟩

theorem reads_top (valid : d.Valid) : Reads d d top fun _ => True :=
  ⟨.refl valid, d.has_one, by simp [top]⟩

theorem reads_bottom (valid : d.Valid) : Reads d d bottom fun _ => False :=
  ⟨.refl valid, d.has_zero, by simp [bottom]⟩

theorem Reads.and {meaning : Valuation → Prop} (reads : Reads d e a meaning) (begun : d₀.Builds S e)
    (hasB : e.Has b.ref) (needs : ∀ k, Requires (fun v => meaning v ∧ e.eval v b.ref = true) k → S k) :
    Ensures (a.and b) e (d₀.Exhausts S) fun r e' =>
      Reads d e' r (fun v => meaning v ∧ e.eval v b.ref = true) ∧ d₀.Builds S e' := by
  have means (v : Valuation) : (e.eval v a.ref && e.eval v b.ref) = true ↔
      meaning v ∧ e.eval v b.ref = true := by rw [Bool.and_eq_true, reads.eval]
  apply (and_ensures begun reads.has hasB (fun _ => rfl) fun k of => needs k ⟨_, means, of⟩).mono
  rintro r e' ⟨gives, builds⟩
  exact ⟨⟨reads.grows.trans gives.grows, gives.has, fun v => gives.eval v ▸ means v⟩, builds⟩

theorem Reads.or {meaning : Valuation → Prop} (reads : Reads d e a meaning) (begun : d₀.Builds S e)
    (hasB : e.Has b.ref) (needs : ∀ k, Requires (fun v => meaning v ∨ e.eval v b.ref = true) k → S k) :
    Ensures (a.or b) e (d₀.Exhausts S) fun r e' =>
      Reads d e' r (fun v => meaning v ∨ e.eval v b.ref = true) ∧ d₀.Builds S e' := by
  have means (v : Valuation) : (e.eval v a.ref || e.eval v b.ref) = true ↔
      meaning v ∨ e.eval v b.ref = true := by rw [Bool.or_eq_true, reads.eval]
  apply (or_ensures begun reads.has hasB (fun _ => rfl) fun k of => needs k ⟨_, means, of⟩).mono
  rintro r e' ⟨gives, builds⟩
  exact ⟨⟨reads.grows.trans gives.grows, gives.has, fun v => gives.eval v ▸ means v⟩, builds⟩

/-- A cube needs nodes for the conjunctions of its first literals. -/
def CubeNeeds (d : Diagram) (literals : List (Region × Bool)) (k : Valuation → Bool) : Prop :=
  ∃ ls, ls <+: literals ∧ Requires (fun v => ∀ l ∈ ls, d.eval v l.1.ref = l.2) k

theorem CubeNeeds.onlyOn {xs : Finset Nat} {literals : List (Region × Bool)} {k : Valuation → Bool}
    (needs : CubeNeeds d literals k) (only : ∀ l ∈ literals, OnlyOn xs (d.eval · l.1.ref)) :
    OnlyOn xs k := by
  obtain ⟨ls, before, requires⟩ := needs
  exact requires.onlyOn fun v w agree => forall₂_congr fun l mem =>
    Eq.congr_left (only l (before.subset mem) v w agree)

theorem cube_ensures {literals : List (Region × Bool)} (begun : d₀.Builds S d)
    (has : ∀ l ∈ literals, d.Has l.1.ref) (needs : ∀ k, CubeNeeds d literals k → S k) :
    Ensures (cube literals) d (d₀.Exhausts S) fun r e =>
      Reads d e r (fun v => ∀ l ∈ literals, d.eval v l.1.ref = l.2) ∧ d₀.Builds S e := by
  -- The accumulator reads as the literals `done` so far.
  apply (Checked.ensures_foldlM (fun rest acc e => ∃ done, done ++ rest = literals ∧
    Reads d e acc (fun v => ∀ l ∈ done, d.eval v l.1.ref = l.2) ∧ d₀.Builds S e) ?_ ?_).mono ?_
  · exact ⟨[], rfl, (reads_top begun.valid).imp (by simp), begun⟩
  · rintro ⟨x, value⟩ rest acc e ⟨done, whole, reads, builds⟩
    have hasX : d.Has x.ref := has (x, value) (whole ▸ by simp)
    have hasE := reads.grows.has hasX
    have more : done ++ [(x, value)] <+: literals := ⟨rest, by simp [← whole]⟩
    have means (v : Valuation) : ((∀ l ∈ done, d.eval v l.1.ref = l.2) ∧
        e.eval v (if value then x else x.not).ref = true) ↔
          ∀ l ∈ done ++ [(x, value)], d.eval v l.1.ref = l.2 := by
      rw [eval_literal builds.valid hasE, reads.grows.nodes.eval_valid begun.valid hasX]
      simp [or_imp, forall_and]
    apply (reads.and builds (has_literal hasE value) fun k of =>
      needs k ⟨_, more, of.congr means⟩).mono
    rintro r e' ⟨reads', builds'⟩
    exact ⟨done ++ [(x, value)], by simp [← whole], reads'.imp means, builds'⟩
  · rintro r e ⟨done, whole, reads, builds⟩
    rw [List.append_nil] at whole
    exact ⟨whole ▸ reads, builds⟩

/-- An entailment needs nodes for what would contradict it. -/
theorem entails_ensures (begun : d₀.Builds S d) (hasA : d.Has a.ref) (hasB : d.Has b.ref)
    (needs : ∀ k, Cofactor (fun v => d.eval v a.ref && !d.eval v b.ref) k → S k) :
    Ensures (a.entails b) d (d₀.Exhausts S) fun answer e =>
      (d.Grows e ∧ (answer = true ↔ ∀ v, d.eval v a.ref = true → d.eval v b.ref = true)) ∧
        d₀.Builds S e :=
  begun.implies hasA hasB (fun _ => rfl) needs

/-! ### Variables -/

structure IsVariable (d : Diagram) (r : Region) : Prop where
  has : d.Has r.ref
  eval : ∀ v, d.eval v r.ref = v (d.var r.ref)

namespace IsVariable

theorem onlyOn (isVariable : r.IsVariable d) : OnlyOn {d.var r.ref} (d.eval · r.ref) := by
  intro v w same
  dsimp only
  rw [isVariable.eval, isVariable.eval]
  exact same _ (Finset.mem_singleton_self _)

theorem eq_of_eval {r' : Region} (isVariable : r.IsVariable d) (valid : d.Valid) (has : d.Has r'.ref)
    (same : ∀ v, d.eval v r'.ref = v (d.var r.ref)) : r' = r := by
  rw [Region.eq_iff valid has isVariable.has]
  intro v
  rw [same, isVariable.eval]

theorem cofactors (isVariable : r.IsVariable d) (ordered : d.Ordered) :
    d.low r.ref = .zero ∧ d.high r.ref = .one := by
  constructor
  · apply ordered.eq_of_eval (ordered.low_known isVariable.has) d.has_zero
    intro v
    rw [ordered.eval_low, isVariable.eval, Function.update_self, Diagram.eval_zero]
  · apply ordered.eq_of_eval (ordered.high_known isVariable.has) d.has_one
    intro v
    rw [ordered.eval_high, isVariable.eval, Function.update_self, Diagram.eval_one]

theorem node?_eq (isVariable : r.IsVariable d) (ordered : d.Ordered) :
    d.node? r.ref = some ⟨d.var r.ref, .zero, .one⟩ ∧ r.ref.isNegated = false := by
  obtain ⟨low, high⟩ := isVariable.cofactors ordered
  cases inner : d.node? r.ref with
  | none =>
    rw [Diagram.low, inner] at low
    rw [Diagram.high, inner] at high
    cases low.symm.trans high
  | some n =>
    have sign : r.ref.isNegated = false := by
      rw [← ordered.isNegated_high inner, high]
      rfl
    rw [Diagram.low_of_node? inner, sign] at low
    rw [Diagram.high_of_node? inner, sign] at high
    have var : d.var r.ref = n.var := by simp only [Diagram.var, inner]
    cases n
    cases low
    cases high
    cases var
    exact ⟨rfl, sign⟩

theorem var_ne_zero (isVariable : r.IsVariable d) (ordered : d.Ordered) : d.var r.ref ≠ 0 :=
  (d.reduced _ _ (Diagram.getElem?_of_node? (isVariable.node?_eq ordered).1)).var_ne_zero

theorem var_lt_bottom (isVariable : r.IsVariable d) (ordered : d.Ordered) :
    d.var r.ref < Diagram.bottomLevel := by
  have inner := (isVariable.node?_eq ordered).1
  have below := ordered.level_lt_bottom inner
  rwa [Diagram.level_of_node? inner] at below

theorem mkVar_eq (isVariable : r.IsVariable d) (ordered : d.Ordered) :
    (Diagram.mkVar (d.var r.ref)).run d = .ok (r.ref, d) := by
  obtain ⟨inner, sign⟩ := isVariable.node?_eq ordered
  have inside := Diagram.getElem?_of_node? inner
  have above := (Diagram.index_lt_of_node? inner).2.2
  unfold Diagram.mkVar Diagram.mkNode
  rw [dif_neg (isVariable.var_ne_zero ordered), dif_neg (by decide), dif_neg (by decide),
    StateT.run, Diagram.place_of_mem _ inside]
  have same : Ref.node (r.ref.index - 2 + 2) = r.ref := by
    apply Ref.ext_of_index
    · rw [Ref.index_node]
      omega
    · rw [Diagram.isNegated_node, sign]
  rw [same]

theorem index_eq (isVariable : r.IsVariable d) (ordered : d.Ordered) :
    r.index.run d = .ok (d.var r.ref, d) := by
  unfold index
  rw [Checked.run_bind_of_ok (Checked.run_get d)]
  dsimp only
  rw [if_neg (isVariable.var_ne_zero ordered), Checked.run_bind_of_ok (isVariable.mkVar_eq ordered),
    if_pos rfl]
  rfl

theorem eq_of_tests {x : Nat} (isVariable : r.IsVariable d) (ordered : d.Ordered)
    (tests : d.Tests r.ref x) : x = d.var r.ref := by
  obtain ⟨v, differs⟩ := tests.depends ordered isVariable.has
  by_contra other
  apply differs
  rw [isVariable.eval, isVariable.eval, Function.update_of_ne (Ne.symm other),
    Function.update_of_ne (Ne.symm other)]

theorem dependsOn_iff {x : Nat} (isVariable : r.IsVariable d) (ordered : d.Ordered) :
    d.DependsOn r.ref x ↔ x = d.var r.ref := by
  rw [Diagram.dependsOn_iff_tests ordered isVariable.has]
  constructor
  · exact isVariable.eq_of_tests ordered
  · rintro rfl
    exact .root (isVariable.node?_eq ordered).1

end IsVariable

end Region

end ProgramAnalysis
