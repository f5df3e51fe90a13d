import Mathlib.Data.List.Sort
import Mathlib.Tactic.ByContra
import ProgramAnalysis.Diagram.Support
import ProgramAnalysis.Proofs.Diagram.Canonicity

/-! The variables that a function tests are the ones that it depends on. A test that makes no difference
would have equal children, and a diagram has no such nodes. The support of a function is found by a
search that looks at every node once, whatever the signs of the references to it. -/
namespace ProgramAnalysis

theorem nodup_eraseDups {α : Type} [BEq α] [LawfulBEq α] (xs : List α) : xs.eraseDups.Nodup := by
  cases xs with
  | nil => exact .nil
  | cons x xs =>
    rw [List.eraseDups_cons, List.nodup_cons]
    constructor
    · simp
    · exact nodup_eraseDups (xs.filter fun y => !y == x)
termination_by xs.length
decreasing_by exact Nat.lt_succ_of_le (List.length_filter_le _ xs)

namespace Diagram

variable {d : Diagram} {r s : Ref} {n : Node} {x : Nat} {v w : Valuation}

/-- The variables that a function tests on the way to a constant. -/
inductive Tests (d : Diagram) : Ref → Nat → Prop
  | root {r : Ref} {n : Node} (inner : d.node? r = some n) : d.Tests r n.var
  | low {r : Ref} {n : Node} {x : Nat} (inner : d.node? r = some n)
      (below : d.Tests (d.low r) x) : d.Tests r x
  | high {r : Ref} {n : Node} {x : Nat} (inner : d.node? r = some n)
      (below : d.Tests (d.high r) x) : d.Tests r x

theorem Tests.neg (tests : d.Tests r x) (ordered : d.Ordered) (known : 1 ≤ r.index) :
    d.Tests (-r) x := by
  induction tests with
  | @root r n inner => exact .root ((node?_neg d r).trans inner)
  | @low r n x inner below ih =>
    have there := ih (ordered.one_le_low known)
    rw [← low_neg known] at there
    exact .low ((node?_neg d r).trans inner) there
  | @high r n x inner below ih =>
    have there := ih (ordered.one_le_high known)
    rw [← high_neg known] at there
    exact .high ((node?_neg d r).trans inner) there

theorem eval_of_tests {d : Diagram} {r : Ref} (same : ∀ x, d.Tests r x → v x = w x) :
    d.eval v r = d.eval w r := by
  cases inner : d.node? r with
  | none => rw [eval_of_terminal inner, eval_of_terminal inner]
  | some n =>
    have smaller := weight_lt_of_node? inner
    rw [eval_of_node? inner, eval_of_node? inner, same n.var (.root inner),
      eval_of_tests fun x tests => same x (.high inner tests),
      eval_of_tests fun x tests => same x (.low inner tests)]
termination_by r.weight

/-- A function depends on the variables that it tests. -/
theorem Tests.depends (tests : d.Tests r x) (ordered : d.Ordered) (has : d.Has r) :
    ∃ v, d.eval (Function.update v x false) r ≠ d.eval (Function.update v x true) r := by
  induction tests with
  | @root r n inner =>
    by_contra! same
    apply Ordered.low_ne_high inner
    apply ordered.eq_of_eval (ordered.low_known has) (ordered.high_known has)
    intro v
    rw [ordered.eval_low_of_false inner, ordered.eval_high_of_true inner, same]
  | @low r n x inner below ih =>
    obtain ⟨v, differs⟩ := ih (ordered.low_known has)
    simp only [ordered.eval_low_of_false inner] at differs
    by_cases here : x = n.var
    · simp [here] at differs
    · simp only [Function.update_comm here] at differs
      exact ⟨_, differs⟩
  | @high r n x inner below ih =>
    obtain ⟨v, differs⟩ := ih (ordered.high_known has)
    simp only [ordered.eval_high_of_true inner] at differs
    by_cases here : x = n.var
    · simp [here] at differs
    · simp only [Function.update_comm here] at differs
      exact ⟨_, differs⟩

/-- The cofactors at `x` are different functions. -/
def DependsOn (d : Diagram) (r : Ref) (x : Nat) : Prop :=
  (fun v => d.eval (Function.update v x false) r) ≠ fun v => d.eval (Function.update v x true) r

theorem dependsOn_iff_tests (ordered : d.Ordered) (has : d.Has r) :
    d.DependsOn r x ↔ d.Tests r x := by
  constructor
  · intro depends
    by_contra untested
    apply depends
    funext v
    apply eval_of_tests
    intro y tests
    have other : y ≠ x := fun same => untested (same ▸ tests)
    rw [Function.update_of_ne other, Function.update_of_ne other]
  · intro tests
    exact Function.ne_iff.mpr (tests.depends ordered has)

theorem dependsOn_neg (ordered : d.Ordered) (has : d.Has r) :
    d.DependsOn (-r) x ↔ d.DependsOn r x := by
  rw [dependsOn_iff_tests ordered (has_neg.mpr has), dependsOn_iff_tests ordered has]
  constructor
  · intro tests
    have again := tests.neg ordered (has_neg.mpr has).1
    rwa [Ref.neg_neg] at again
  · exact fun tests => tests.neg ordered has.1

/-! ### The search -/

variable {i : Nat} {seen seen' old : Std.HashSet Nat}

theorem node?_of_index (same : r.index = s.index) : d.node? r = d.node? s := by
  simp only [node?, same]

theorem var_node_index (inner : d.node? r = some n) : d.var (.node r.index) = n.var := by
  have root : d.node? (.node r.index) = some n := (node?_of_index (Ref.index_node _)).trans inner
  simp only [var, root]

theorem index_low_of_index (same : r.index = s.index) : (d.low r).index = (d.low s).index := by
  unfold low
  rw [node?_of_index same]
  split
  · rw [index_complementIf, index_complementIf]
  · exact same

theorem index_high_of_index (same : r.index = s.index) : (d.high r).index = (d.high s).index := by
  unfold high
  rw [node?_of_index same]
  split
  · rw [index_complementIf, index_complementIf]
  · exact same

/-- The node of the reference has been seen, if it has one. -/
def Covers (d : Diagram) (seen : Std.HashSet Nat) (r : Ref) : Prop :=
  ∀ n, d.node? r = some n → r.index ∈ seen

theorem Covers.of_index (covers : d.Covers seen r) (same : r.index = s.index) :
    d.Covers seen s := by
  intro n inner
  rw [← node?_of_index same] at inner
  exact same ▸ covers n inner

theorem Covers.mono (covers : d.Covers seen r) (more : ∀ i ∈ seen, i ∈ seen') :
    d.Covers seen' r := fun n inner => more _ (covers n inner)

/-- What was not seen before was seen with its children. -/
def ClosedSince (d : Diagram) (old seen : Std.HashSet Nat) : Prop :=
  ∀ r : Ref, r.index ∈ seen → r.index ∈ old ∨ d.Covers seen (d.low r) ∧ d.Covers seen (d.high r)

theorem mem_visit_of_mem (mem : i ∈ seen) : i ∈ d.visit r seen := by
  fun_induction visit d r seen with
  | case1 => exact mem
  | case2 => exact mem
  | case3 r seen n inner fresh low high =>
    exact high (low (Std.HashSet.mem_insert.mpr (.inr mem)))

theorem visit_covers (d : Diagram) (r : Ref) (seen : Std.HashSet Nat) :
    d.Covers (d.visit r seen) r := by
  intro n here
  fun_induction visit d r seen with
  | case1 r seen terminal =>
    rw [terminal] at here
    cases here
  | case2 r seen m inner known => exact Std.HashSet.mem_iff_contains.mpr known
  | case3 r seen m inner fresh low high =>
    exact mem_visit_of_mem (mem_visit_of_mem Std.HashSet.mem_insert_self)

theorem visit_closed (d : Diagram) (r : Ref) (seen : Std.HashSet Nat) :
    d.ClosedSince seen (d.visit r seen) := by
  fun_induction visit d r seen with
  | case1 => exact fun _ mem => .inl mem
  | case2 => exact fun _ mem => .inl mem
  | case3 r seen n inner fresh low high =>
    intro s mem
    have later (i : Nat) (mem : i ∈ d.visit (d.low r) (seen.insert r.index)) :
        i ∈ d.visit (d.high r) (d.visit (d.low r) (seen.insert r.index)) := mem_visit_of_mem mem
    cases high s mem with
    | inr closed => exact .inr closed
    | inl before =>
      cases low s before with
      | inr closed => exact .inr ⟨closed.1.mono later, closed.2.mono later⟩
      | inl first =>
        cases Std.HashSet.mem_insert.mp first with
        | inr known => exact .inl known
        | inl here =>
          -- The node itself: its children were visited next.
          have same : r.index = s.index := eq_of_beq here
          have onLow := (d.visit_covers (d.low r) (seen.insert r.index)).mono later
          have onHigh := d.visit_covers (d.high r) (d.visit (d.low r) (seen.insert r.index))
          exact .inr ⟨onLow.of_index (index_low_of_index same),
            onHigh.of_index (index_high_of_index same)⟩

theorem tests_of_mem_visit (mem : i ∈ d.visit r seen) :
    i ∈ seen ∨ d.Tests r (d.var (.node i)) := by
  fun_induction visit d r seen with
  | case1 => exact .inl mem
  | case2 => exact .inl mem
  | case3 r seen n inner fresh low high =>
    cases high mem with
    | inr tests => exact .inr (.high inner tests)
    | inl before =>
      cases low before with
      | inr tests => exact .inr (.low inner tests)
      | inl first =>
        cases Std.HashSet.mem_insert.mp first with
        | inr known => exact .inl known
        | inl here =>
          obtain rfl : r.index = i := eq_of_beq here
          exact .inr (var_node_index inner ▸ .root inner)

theorem exists_of_tests (closed : d.ClosedSince ∅ seen) (covers : d.Covers seen r)
    (tests : d.Tests r x) : ∃ i ∈ seen, d.var (.node i) = x := by
  have children {r : Ref} {n : Node} (inner : d.node? r = some n) (covers : d.Covers seen r) :
      d.Covers seen (d.low r) ∧ d.Covers seen (d.high r) :=
    (closed r (covers n inner)).resolve_left Std.HashSet.not_mem_empty
  induction tests with
  | @root r n inner =>
    exact ⟨r.index, covers n inner, var_node_index inner⟩
  | low inner below ih => exact ih (children inner covers).1
  | high inner below ih => exact ih (children inner covers).2

theorem mem_support : x ∈ d.support r ↔ d.Tests r x := by
  rw [support, List.mem_mergeSort, List.mem_eraseDups, List.mem_map]
  simp only [reach, Std.HashSet.mem_toList]
  constructor
  · rintro ⟨i, mem, rfl⟩
    exact (tests_of_mem_visit mem).resolve_left Std.HashSet.not_mem_empty
  · intro tests
    exact exists_of_tests (d.visit_closed r ∅) (d.visit_covers r ∅) tests

theorem support_increasing (d : Diagram) (r : Ref) : (d.support r).Pairwise (· < ·) := by
  have sorted : (d.support r).Pairwise (· ≤ ·) := List.pairwise_mergeSort' (· ≤ ·) _
  have once : (d.support r).Nodup := List.nodup_mergeSort.mpr (nodup_eraseDups _)
  exact (sorted.and once).imp fun ⟨le, ne⟩ => Nat.lt_of_le_of_ne le ne

theorem mem_support_iff (ordered : d.Ordered) (has : d.Has r) :
    x ∈ d.support r ↔ d.DependsOn r x :=
  mem_support.trans (dependsOn_iff_tests ordered has).symm

end Diagram

end ProgramAnalysis
