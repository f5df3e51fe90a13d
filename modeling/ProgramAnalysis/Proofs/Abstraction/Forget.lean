import ProgramAnalysis.Abstraction.Combine
import ProgramAnalysis.Proofs.Diagram.Quantify
import ProgramAnalysis.Proofs.Diagram.Room
import ProgramAnalysis.Proofs.Predicate.Concrete
import ProgramAnalysis.Proofs.Region

/-! Forgetting predicates is quantification of their variables, one after another. What is left is the
strongest consequence without these variables, so it does not matter how they are listed. It only needs the
nodes of what is left after each variable. -/
namespace ProgramAnalysis

namespace Valuation

variable {x : Nat} {xs ys : List Nat} {m k h : Valuation → Bool}

def Ignores (m : Valuation → Bool) (xs : List Nat) : Prop :=
  ∀ x ∈ xs, ∀ v b, m (Function.update v x b) = m v

def quantifyAll (xs : List Nat) (m : Valuation → Bool) : Valuation → Bool :=
  xs.foldl (fun m x => quantify x m) m

/-- Among the functions without the variables that follow from `m`, `k` is the strongest. -/
structure Projection (xs : List Nat) (m k : Valuation → Bool) : Prop where
  entailed : ∀ v, m v = true → k v = true
  ignores : Ignores k xs
  strongest : ∀ h, (∀ v, m v = true → h v = true) → Ignores h xs → ∀ v, k v = true → h v = true

theorem le_quantify (x : Nat) {v : Valuation} (holds : m v = true) : quantify x m v = true := by
  have same := Function.update_eq_self x v
  unfold quantify
  cases value : v x with
  | false =>
    rw [value] at same
    rw [same, holds, Bool.true_or]
  | true =>
    rw [value] at same
    rw [same, holds, Bool.or_true]

theorem quantify_ignores (x : Nat) (m : Valuation → Bool) : Ignores (quantify x m) [x] := by
  intro y mem v b
  cases List.mem_singleton.mp mem
  simp only [quantify, Function.update_idem]

theorem Ignores.quantified (ignores : Ignores m ys) (x : Nat) : Ignores (quantify x m) ys := by
  intro y mem v b
  by_cases same : y = x
  · subst same
    exact quantify_ignores y m y (List.mem_singleton_self y) v b
  · simp only [quantify, Function.update_comm same, ignores y mem]

theorem Ignores.quantified_all (ignores : Ignores m ys) (xs : List Nat) :
    Ignores (quantifyAll xs m) ys := by
  induction xs generalizing m with
  | nil => exact ignores
  | cons x xs ih => exact ih (ignores.quantified x)

theorem quantify_le {v : Valuation} (ignores : ∀ v b, h (Function.update v x b) = h v)
    (entails : ∀ v, m v = true → h v = true) (holds : quantify x m v = true) : h v = true := by
  unfold quantify at holds
  cases Bool.or_eq_true_iff.mp holds with
  | inl low => exact ignores v false ▸ entails _ low
  | inr high => exact ignores v true ▸ entails _ high

theorem quantifyAll_projection (xs : List Nat) (m : Valuation → Bool) :
    Projection xs m (quantifyAll xs m) := by
  induction xs generalizing m with
  | nil => exact ⟨fun _ holds => holds, nofun, fun h entails _ => entails⟩
  | cons x xs ih =>
    have rest := ih (quantify x m)
    have first : Ignores (quantifyAll xs (quantify x m)) [x] := (quantify_ignores x m).quantified_all xs
    refine ⟨fun v holds => rest.entailed v (le_quantify x holds), ?_, ?_⟩
    · intro y mem
      cases mem with
      | head => exact first x (List.mem_singleton_self x)
      | tail _ mem => exact rest.ignores y mem
    · intro h entails ignores
      have here := ignores x List.mem_cons_self
      have later : Ignores h xs := fun y mem => ignores y (List.mem_cons_of_mem x mem)
      exact rest.strongest h (fun _ holds => quantify_le here entails holds) later

/-- There is one strongest function, whatever list the variables are in. -/
theorem Projection.eq (first : Projection xs m k) (second : Projection ys m h)
    (same : ∀ x, x ∈ xs ↔ x ∈ ys) : k = h := by
  have ignoresK : Ignores k ys := fun x mem => first.ignores x ((same x).mpr mem)
  have ignoresH : Ignores h xs := fun x mem => second.ignores x ((same x).mp mem)
  funext v
  rw [Bool.eq_iff_iff]
  exact ⟨first.strongest h second.entailed ignoresH v, second.strongest k first.entailed ignoresK v⟩

/-- What does not depend on one of two variables and follows from both follows from the other. -/
theorem projection_and {i j : Nat} (differ : j ≠ i) (all : ∀ x ∈ xs, x = i) (some : i ∈ xs) :
    Projection xs (fun v => v i && v j) (· j) := by
  refine ⟨fun v holds => (Bool.and_eq_true_iff.mp holds).2, fun x mem v value => ?_,
    fun h follows ignores v holds => ?_⟩
  · rw [all x mem]
    exact Function.update_of_ne differ value v
  · rw [← ignores i some v true]
    apply follows
    rw [Function.update_self, Function.update_of_ne differ, holds]
    rfl

theorem Projection.entailed_and (first : Projection xs m k) (second : Projection ys m h)
    {v : Valuation} (holds : m v = true) : (k v && h v) = true := by
  rw [first.entailed v holds, second.entailed v holds]
  rfl

theorem Projection.and_eq (first : Projection xs m k) (second : Projection ys m h)
    {f g : Valuation → Bool} (ignoresF : Ignores f xs) (ignoresG : Ignores g ys)
    (parts : ∀ v, m v = (f v && g v)) (v : Valuation) : (k v && h v) = m v := by
  have inF (v : Valuation) (holds : m v = true) : f v = true := by
    rw [parts] at holds
    exact (Bool.and_eq_true_iff.mp holds).1
  have inG (v : Valuation) (holds : m v = true) : g v = true := by
    rw [parts] at holds
    exact (Bool.and_eq_true_iff.mp holds).2
  rw [Bool.eq_iff_iff]
  constructor
  · intro both
    obtain ⟨left, right⟩ := Bool.and_eq_true_iff.mp both
    rw [parts, first.strongest f inF ignoresF v left, second.strongest g inG ignoresG v right]
    rfl
  · exact first.entailed_and second

theorem quantifyAll_onlyOn {vars : Finset Nat} (only : Diagram.OnlyOn vars m) (xs : List Nat) :
    Diagram.OnlyOn vars (quantifyAll xs m) := by
  induction xs generalizing m with
  | nil => exact only
  | cons x xs ih => exact ih (only.quantify x)

end Valuation

open Checked (Ensures)
open Diagram (Cofactor)

theorem Diagram.Valid.var_lt {d : Diagram} (valid : d.Valid) (vars : d.vars ≤ d.nodes.size) (r : Ref) :
    d.var r < bottomLevel := by
  have inUse := valid.var_ref_le r
  have room := valid.size_le
  unfold bottomLevel
  omega

namespace Region

variable {d e : Diagram} {p : Predicate} {q x : Region} {ps : List Predicate}

theorem index_ensures (valid : d.Valid) (vars : d.vars ≤ d.nodes.size) (x : Region) :
    Ensures x.index d (fun _ => True) fun i e => d.Grows e ∧ i = d.var x.ref ∧ i ≠ 0 := by
  unfold index
  rw [Checked.ensures_bind, Checked.ensures_get]
  dsimp only
  split
  · trivial
  rename_i nonzero
  rw [Checked.ensures_bind]
  apply (Diagram.mkVar_ensures valid nonzero (valid.var_ref_le x.ref) (valid.var_lt vars x.ref)).imp _
    fun _ _ => trivial
  rintro ref e ⟨⟨grown, -⟩, -⟩
  split
  · exact ⟨grown, rfl, nonzero⟩
  · trivial

/-- What quantification gives, whether or not the region is a variable. -/
theorem existsVar_ensures (valid : d.Valid) (vars : d.vars ≤ d.nodes.size) (has : d.Has q.ref)
    (x : Region) : Ensures (q.existsVar x) d (fun _ => True) fun r e =>
      d.Gives e r.ref (Valuation.quantify (d.var x.ref) (d.eval · q.ref)) := by
  unfold existsVar
  rw [Checked.ensures_bind]
  apply (index_ensures valid vars x).mono
  rintro i d₁ ⟨grown, rfl, nonzero⟩
  rw [Checked.ensures_bind]
  apply (Diagram.existsVar_builds (S := fun _ => True) grown.valid (grown.has has) nonzero
    (valid.var_lt vars x.ref) fun _ _ => trivial).imp _ fun _ _ => trivial
  rintro ref e ⟨gives, -⟩
  apply gives.after grown
  intro v
  simp only [Valuation.quantify, grown.nodes.eval_valid valid has]

variable {d₀ : Diagram} {S : (Valuation → Bool) → Prop} {m : Valuation → Bool}

/-- The marker of a predicate is known as a variable, so only the result needs nodes. -/
theorem existsVar_marker (begun : d₀.Builds S d) (marks : p.Marks d) (has : d.Has q.ref)
    (same : ∀ v, d.eval v q.ref = m v)
    (needs : ∀ k, Cofactor (Valuation.quantify (d.var p.marker.ref) m) k → S k) :
    Ensures (q.existsVar p.marker) d (d₀.Exhausts S) fun r e =>
      d.Gives e r.ref (Valuation.quantify (d.var p.marker.ref) m) ∧ d₀.Builds S e := by
  obtain rfl : (d.eval · q.ref) = m := funext same
  have ordered := begun.valid.ordered
  have isVariable := marks.isVariable
  have index : Ensures p.marker.index d (d₀.Exhausts S) fun i e => i = d.var p.marker.ref ∧ e = d := by
    have run : p.marker.index d = .ok (d.var p.marker.ref, d) := isVariable.index_eq ordered
    rw [Checked.Ensures, run]
    exact ⟨rfl, rfl⟩
  unfold existsVar
  rw [Checked.ensures_bind]
  apply index.mono
  rintro i d' ⟨rfl, rfl⟩
  rw [Checked.ensures_bind]
  exact begun.existsVar has (isVariable.var_ne_zero ordered) (isVariable.var_lt_bottom ordered)
    (fun _ => rfl) needs

/-- The functions of the nodes for what is left after the first variables. -/
def ForgetNeeds (xs : List Nat) (m k : Valuation → Bool) : Prop :=
  ∃ ys, ys <+: xs ∧ Cofactor (Valuation.quantifyAll ys m) k

theorem ForgetNeeds.onlyOn {vars : Finset Nat} {xs : List Nat} {k : Valuation → Bool}
    (needs : ForgetNeeds xs m k) (only : Diagram.OnlyOn vars m) : Diagram.OnlyOn vars k := by
  obtain ⟨ys, -, of⟩ := needs
  exact (Valuation.quantifyAll_onlyOn only ys).cofactor of

theorem forget_ensures (begun : d₀.Builds S d) (marks : ∀ p ∈ ps, p.Marks d) (has : d.Has q.ref)
    (same : ∀ v, d.eval v q.ref = m v)
    (needs : ∀ k, ForgetNeeds (ps.map fun p => d.var p.marker.ref) m k → S k) :
    Ensures (Abstractor.forget q ps) d (d₀.Exhausts S) fun r e =>
      d.Gives e r.ref (Valuation.quantifyAll (ps.map fun p => d.var p.marker.ref) m) ∧
        d₀.Builds S e := by
  induction ps generalizing d q m with
  | nil => exact ⟨⟨.refl begun.valid, has, same⟩, begun⟩
  | cons p ps ih =>
    obtain ⟨here, later⟩ := List.forall_mem_cons.mp marks
    rw [List.map_cons] at needs ⊢
    unfold Abstractor.forget
    rw [List.foldlM_cons, Checked.ensures_bind]
    apply (existsVar_marker begun here has same fun k of =>
      needs k ⟨[_], by simp, of⟩).mono
    rintro q₁ d₁ ⟨first, builds⟩
    have grown := first.grows
    have marks₁ (p : Predicate) (mem : p ∈ ps) : p.Marks d₁ := (later p mem).grows begun.valid grown.nodes
    have names : ps.map (fun p => d₁.var p.marker.ref) = ps.map fun p => d.var p.marker.ref :=
      List.map_congr_left fun p mem => grown.nodes.var_eq (later p mem).has
    have rest := ih builds marks₁ first.has first.eval
    rw [names] at rest
    apply (rest fun k ⟨ys, before, of⟩ => needs k ⟨_ :: ys, by simpa using before, of⟩).mono
    rintro r e ⟨gives, builds⟩
    exact ⟨gives.after grown fun _ => rfl, builds⟩

end Region

end ProgramAnalysis
