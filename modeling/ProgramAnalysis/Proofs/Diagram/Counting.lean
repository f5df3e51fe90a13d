import Mathlib.Algebra.BigOperators.Group.Finset.Powerset
import Mathlib.Algebra.BigOperators.Ring.Finset
import Mathlib.Algebra.Order.Interval.Finset.SuccPred
import Mathlib.Data.Nat.SuccPred
import Mathlib.Order.Interval.Finset.Nat
import Mathlib.Tactic.Ring
import ProgramAnalysis.Proofs.Predicate.Registry

/-! Counting models. A variable that makes no difference doubles the number of models, which is why a count
over fewer variables is scaled by a power of two, and a count over more variables is divided by one. -/
namespace ProgramAnalysis

namespace Valuation

variable {x : Nat} {xs ys zs : Finset Nat} {m : Valuation → Bool}

/-- The variables in `t` are true and no others. -/
def ofSet (t : Finset Nat) : Valuation := fun x => decide (x ∈ t)

/-- The number of valuations of the variables `xs` that satisfy `m`. Each is given by the variables that
it makes true. -/
def models (xs : Finset Nat) (m : Valuation → Bool) : Nat :=
  (xs.powerset.filter fun t => m (ofSet t)).card

theorem update_ofSet_false {t : Finset Nat} (absent : x ∉ t) :
    Function.update (ofSet t) x false = ofSet t := by
  rw [Function.update_eq_self_iff, ofSet, decide_eq_false absent]

theorem update_ofSet_true (x : Nat) (t : Finset Nat) :
    Function.update (ofSet t) x true = ofSet (insert x t) := by
  funext y
  by_cases same : y = x
  · subst same
    simp [ofSet]
  · simp [ofSet, same]

theorem models_empty (m : Valuation → Bool) : models ∅ m = if m (ofSet ∅) then 1 else 0 := by
  rw [models, Finset.powerset_empty, Finset.card_filter, Finset.sum_singleton]

theorem models_insert (fresh : x ∉ xs) (m : Valuation → Bool) :
    models (insert x xs) m = models xs (fun v => m (Function.update v x false)) +
      models xs (fun v => m (Function.update v x true)) := by
  simp only [models, Finset.card_filter]
  rw [Finset.sum_powerset_insert fresh]
  congr 1
  · apply Finset.sum_congr rfl
    intro t mem
    have absent : x ∉ t := fun inside => fresh (Finset.mem_powerset.mp mem inside)
    rw [update_ofSet_false absent]
  · apply Finset.sum_congr rfl
    intro t _
    rw [update_ofSet_true]

/-- Variables that make no difference may have any values. -/
theorem models_union (apart : Disjoint zs xs)
    (ignored : ∀ x ∈ zs, ∀ v b, m (Function.update v x b) = m v) :
    models (zs ∪ xs) m = 2 ^ zs.card * models xs m := by
  induction zs using Finset.induction_on with
  | empty => simp
  | insert z zs fresh ih =>
    obtain ⟨here, rest⟩ := Finset.forall_mem_insert .. |>.mp ignored
    obtain ⟨outside, apart⟩ := Finset.disjoint_insert_left.mp apart
    have new : z ∉ zs ∪ xs := by simp [fresh, outside]
    rw [Finset.insert_union, models_insert new, funext fun v => here v false,
      funext fun v => here v true, ih apart rest, Finset.card_insert_of_notMem fresh]
    ring

theorem models_of_subset (subset : xs ⊆ ys)
    (ignored : ∀ x ∈ ys, x ∉ xs → ∀ v b, m (Function.update v x b) = m v) :
    models ys m = models xs m <<< (ys.card - xs.card) := by
  have whole : ys = ys \ xs ∪ xs := (Finset.sdiff_union_of_subset subset).symm
  have more : ∀ x ∈ ys \ xs, ∀ v b, m (Function.update v x b) = m v := by
    intro x mem
    obtain ⟨inside, outside⟩ := Finset.mem_sdiff.mp mem
    exact ignored x inside outside
  rw [whole, models_union Finset.sdiff_disjoint more, ← whole, Finset.card_sdiff_of_subset subset,
    Nat.shiftLeft_eq, Nat.mul_comm]

end Valuation

namespace Diagram

open Checked (Ensures)
open ProgramAnalysis.Valuation (models)

variable {d : Diagram} {r f : Ref} {n k x : Nat} {node : Node}

/-- The models over the variables from the root to `n`. -/
def modelsFrom (d : Diagram) (n : Nat) (r : Ref) : Nat :=
  models (Finset.Icc (d.levelWithin n r) n) fun v => d.eval v r

theorem levelWithin_of_node? (inner : d.node? r = some node) : d.levelWithin n r = node.var := by
  simp only [levelWithin, inner]

theorem levelWithin_le (within : ∀ x, d.Tests r x → x ≤ n) : d.levelWithin n r ≤ n + 1 := by
  unfold levelWithin
  split
  · rename_i node inner
    exact Nat.le_succ_of_le (within node.var (.root inner))
  · exact Nat.le_refl _

theorem one_le_levelWithin (d : Diagram) (n : Nat) (r : Ref) : 1 ≤ d.levelWithin n r := by
  cases inner : d.node? r with
  | none =>
    simp only [levelWithin, inner]
    omega
  | some node =>
    rw [levelWithin_of_node? inner]
    exact Nat.one_le_iff_ne_zero.mpr (d.reduced _ _ (getElem?_of_node? inner)).var_ne_zero

theorem lt_levelWithin (le : x ≤ n) (before : x < d.level r) : x < d.levelWithin n r := by
  cases inner : d.node? r with
  | none =>
    simp only [levelWithin, inner]
    omega
  | some node => rwa [levelWithin_of_node? inner, ← level_of_node? inner]

theorem lt_levelWithin_children (ordered : d.Ordered) (inner : d.node? r = some node)
    (le : node.var ≤ n) :
    node.var < d.levelWithin n (d.low r) ∧ node.var < d.levelWithin n (d.high r) := by
  have low := ordered.level_lt_low inner
  have high := ordered.level_lt_high inner
  rw [level_of_node? inner] at low high
  exact ⟨lt_levelWithin le low, lt_levelWithin le high⟩

theorem lt_level_of_lt_levelWithin (small : n < bottomLevel) (le : x ≤ n)
    (before : x < d.levelWithin n r) : x < d.level r := by
  cases inner : d.node? r with
  | none =>
    simp only [level, inner]
    omega
  | some node =>
    rwa [levelWithin_of_node? inner, ← level_of_node? inner] at before

theorem models_Icc (ordered : d.Ordered) (small : n < bottomLevel)
    (within : ∀ x, d.Tests r x → x ≤ n) (above : k ≤ d.levelWithin n r) :
    models (Finset.Icc k n) (fun v => d.eval v r) =
      d.modelsFrom n r <<< (d.levelWithin n r - k) := by
  have le := levelWithin_le within
  have subset : Finset.Icc (d.levelWithin n r) n ⊆ Finset.Icc k n :=
    Finset.Icc_subset_Icc_left above
  have size : (Finset.Icc k n).card - (Finset.Icc (d.levelWithin n r) n).card =
      d.levelWithin n r - k := by
    rw [Nat.card_Icc, Nat.card_Icc]
    omega
  rw [Valuation.models_of_subset subset, size]
  · rfl
  · intro x mem outside v b
    rw [Finset.mem_Icc] at mem outside
    exact ordered.eval_update (lt_level_of_lt_levelWithin small mem.2 (by omega)) b

theorem modelsFrom_terminal (terminal : d.node? r = none) (has : d.Has r) :
    d.modelsFrom n r = if r = .zero then 0 else 1 := by
  have level : d.levelWithin n r = n + 1 := by simp only [levelWithin, terminal]
  rw [modelsFrom, level, Finset.Icc_eq_empty (by omega), Valuation.models_empty]
  rcases eq_constant_of_terminal has terminal with rfl | rfl
  · simp [show Ref.one ≠ Ref.zero by decide]
  · simp

/-- The children are further down than their node, so the differences of the levels are exact. -/
theorem modelsFrom_inner (ordered : d.Ordered) (small : n < bottomLevel)
    (within : ∀ x, d.Tests r x → x ≤ n) (inner : d.node? r = some node) :
    d.modelsFrom n r =
      d.modelsFrom n (d.low r) <<< (d.levelWithin n (d.low r) - node.var - 1) +
        d.modelsFrom n (d.high r) <<< (d.levelWithin n (d.high r) - node.var - 1) := by
  have le : node.var ≤ n := within node.var (.root inner)
  have fresh : node.var ∉ Finset.Icc (node.var + 1) n := by simp
  obtain ⟨aboveLow, aboveHigh⟩ := lt_levelWithin_children ordered inner le
  have low := models_Icc ordered small (fun x tests => within x (.low inner tests)) aboveLow
  have high := models_Icc ordered small (fun x tests => within x (.high inner tests)) aboveHigh
  rw [Nat.sub_sub, Nat.sub_sub, ← low, ← high, modelsFrom, levelWithin_of_node? inner,
    ← Finset.insert_Icc_add_one_left_eq_Icc le, Valuation.models_insert fresh]
  simp only [ordered.eval_low_of_false inner, ordered.eval_high_of_true inner]

/-- Every count that is remembered is right. -/
def Counted (d : Diagram) (n : Nat) (known : Std.HashMap Ref Nat) : Prop :=
  ∀ s count, known[s]? = some count → count = d.modelsFrom n s

theorem Counted.insert {known : Std.HashMap Ref Nat} {count : Nat} (counted : d.Counted n known)
    (right : count = d.modelsFrom n r) : d.Counted n (known.insert r count) := by
  intro s c found
  rw [Std.HashMap.getElem?_insert] at found
  split at found
  · rename_i same
    obtain rfl : r = s := eq_of_beq same
    cases found
    exact right
  · exact counted s c found

theorem countFrom_ensures (ordered : d.Ordered) (small : n < bottomLevel) (has : d.Has r)
    (within : ∀ x, d.Tests r x → x ≤ n) {known : Std.HashMap Ref Nat}
    (counted : d.Counted n known) :
    Ensures (d.countFrom n r) known (fun _ => False) fun count known' =>
      count = d.modelsFrom n r ∧ d.Counted n known' := by
  fun_induction countFrom d n r generalizing known with
  | case1 r terminal => exact ⟨(modelsFrom_terminal terminal has).symm, counted⟩
  | case2 r node inner low high =>
    have above := lt_levelWithin_children ordered inner (within node.var (.root inner))
    have withinLow (x : Nat) (tests : d.Tests (d.low r) x) : x ≤ n := within x (.low inner tests)
    have withinHigh (x : Nat) (tests : d.Tests (d.high r) x) : x ≤ n := within x (.high inner tests)
    rw [Checked.ensures_bind, Checked.ensures_get]
    split
    · rename_i count found
      exact ⟨counted r count found, counted⟩
    · dsimp only
      rw [if_neg (by omega), Checked.ensures_bind]
      apply (low (ordered.low_known has) withinLow counted).mono
      intro countLow known both
      obtain ⟨rightLow, counted⟩ := both
      rw [Checked.ensures_bind]
      apply (high (ordered.high_known has) withinHigh counted).mono
      intro countHigh known both
      obtain ⟨rightHigh, counted⟩ := both
      rw [Checked.ensures_bind, Checked.ensures_modify, Checked.ensures_pure, rightLow, rightHigh,
        ← modelsFrom_inner ordered small within inner]
      exact ⟨rfl, counted.insert rfl⟩

/-- The recursion starts at the root, and the variables above it are free. -/
theorem satCount_eq (ordered : d.Ordered) (has : d.Has f) (small : n < bottomLevel)
    (within : ∀ x, d.DependsOn f x → x ≤ n) :
    d.satCount f n = .ok (models (Finset.Icc 1 n) fun v => d.eval v f) := by
  have tested (x : Nat) (tests : d.Tests f x) : x ≤ n :=
    within x ((dependsOn_iff_tests ordered has).mpr tests)
  have last : (d.support f).getLast?.getD 0 ≤ n := by
    cases found : (d.support f).getLast? with
    | none => exact Nat.zero_le n
    | some x => exact tested x (mem_support.mp (List.mem_of_getLast? found))
  have start : d.Counted n ∅ := by
    intro s count found
    simp at found
  obtain ⟨count, known, run, right, -⟩ :=
    (countFrom_ensures ordered small has tested start).exists_run
  have above : 1 ≤ d.levelWithin n f := one_le_levelWithin d n f
  unfold bottomLevel at small
  unfold satCount
  dsimp only
  rw [if_neg (by omega), if_neg (by omega), StateT.run, run, models_Icc ordered small tested above,
    right]
  rfl

/-- A count over all variables up to `n` has each model of the listed variables as often as the others
have valuations. -/
theorem models_listed (ordered : d.Ordered) (has : d.Has f) (xs : List Nat)
    (listed : ∀ x, d.DependsOn f x → x ∈ xs) (inRange : ∀ x ∈ xs, 1 ≤ x ∧ x ≤ n) :
    models (Finset.Icc 1 n) (fun v => d.eval v f) =
      models xs.toFinset (fun v => d.eval v f) <<< (n - xs.eraseDups.length) := by
  have subset : xs.toFinset ⊆ Finset.Icc 1 n := by
    intro x mem
    exact Finset.mem_Icc.mpr (inRange x (List.mem_toFinset.mp mem))
  have distinct : xs.toFinset.card = xs.eraseDups.length := by
    rw [← List.toFinset_card_of_nodup (nodup_eraseDups xs)]
    congr 1
    ext x
    simp
  have ignored (x : Nat) (_ : x ∈ Finset.Icc 1 n) (outside : x ∉ xs.toFinset) (v : Valuation)
      (b : Bool) : d.eval (Function.update v x b) f = d.eval v f := by
    apply eval_of_tests
    intro y tests
    apply Function.update_of_ne
    rintro rfl
    exact outside (List.mem_toFinset.mpr (listed y ((dependsOn_iff_tests ordered has).mpr tests)))
  rw [Valuation.models_of_subset subset ignored, Nat.card_Icc, Nat.add_sub_cancel, distinct]

end Diagram

namespace Region

open ProgramAnalysis.Valuation (models)

variable {d : Diagram} {r : Region} {xs : List Region}

theorem modelCount_eq (ordered : d.Ordered) (has : d.Has r.ref)
    (isVariable : ∀ x ∈ xs, x.IsVariable d)
    (listed : ∀ x, d.DependsOn r.ref x → x ∈ xs.map fun x => d.var x.ref) :
    (r.modelCount xs).run d =
      .ok (models (xs.map fun x => d.var x.ref).toFinset fun v => d.eval v r.ref, d) := by
  have indexed := Checked.run_mapM_of_ok fun x mem => (isVariable x mem).index_eq ordered
  have inRange (y : Nat) (mem : y ∈ xs.map fun x => d.var x.ref) :
      1 ≤ y ∧ y < Diagram.bottomLevel := by
    obtain ⟨x, memX, rfl⟩ := List.mem_map.mp mem
    exact ⟨Nat.one_le_iff_ne_zero.mpr ((isVariable x memX).var_ne_zero ordered),
      (isVariable x memX).var_lt_bottom ordered⟩
  generalize (xs.map fun x => d.var x.ref) = vs at indexed inRange listed ⊢
  have le_last (x : Nat) (mem : x ∈ vs) : x ≤ vs.foldl max 0 := by
    rw [List.foldl_max, Nat.zero_max]
    exact List.le_max?_getD_of_mem mem
  have small : vs.foldl max 0 < Diagram.bottomLevel :=
    List.foldlRecOn vs max (motive := fun k => k < Diagram.bottomLevel) (by decide)
      fun k lt x mem => Nat.max_lt.mpr ⟨lt, (inRange x mem).2⟩
  have contained : (d.support r.ref).all vs.contains = true := by
    rw [List.all_eq_true]
    intro x mem
    rw [List.contains_iff_mem]
    exact listed x ((Diagram.mem_support_iff ordered has).mp mem)
  have total := Diagram.satCount_eq ordered has small fun x depends => le_last x (listed x depends)
  rw [Diagram.models_listed ordered has vs listed fun x mem => ⟨(inRange x mem).1, le_last x mem⟩]
    at total
  unfold modelCount
  rw [Checked.run_bind_of_ok indexed, Checked.run_bind_of_ok (Checked.run_get d), if_pos contained]
  dsimp only
  rw [total, Checked.run_bind_of_ok (Checked.run_liftM_ok ..), Nat.shiftLeft_shiftRight]
  rfl

end Region

namespace Diagram

open ProgramAnalysis.Valuation (models)

/-- The count of a function is the number of its models over the variables `1` to `n`, and the count of
a region over listed variables is the number of its models over these, each counted once. -/
theorem counts_models {d : Diagram} (ordered : d.Ordered) :
    (∀ (f : Ref) (n : Nat), d.Has f → n < bottomLevel → (∀ x, d.DependsOn f x → x ≤ n) →
      d.satCount f n = .ok (models (Finset.Icc 1 n) fun v => d.eval v f)) ∧
    ∀ (r : Region) (xs : List Region), d.Has r.ref → (∀ x ∈ xs, x.IsVariable d) →
      (∀ x, d.DependsOn r.ref x → x ∈ xs.map fun x => d.var x.ref) →
      (r.modelCount xs).run d =
        .ok (models (xs.map fun x => d.var x.ref).toFinset fun v => d.eval v r.ref, d) := by
  constructor
  · intro f n has small within
    exact satCount_eq ordered has small within
  · intro r xs has isVariable listed
    exact Region.modelCount_eq ordered has isVariable listed

/-- The complement of a variable, counted over the variables up to its own and over the variable alone,
which is listed twice. -/
theorem counts_models_complement : ∃ (d : Diagram) (x : Region), d.Ordered ∧ x.IsVariable d ∧
    d.satCount x.not.ref (d.var x.ref) = .ok (2 ^ (d.var x.ref - 1)) ∧
    (x.not.modelCount [x, x]).run d = .ok (1, d) := by
  obtain ⟨d, x, valid, isVariable, -⟩ := Registry.exists_variable
  have has : d.Has x.not.ref := Region.has_not isVariable.has
  have depends (y : Nat) (dependsOn : d.DependsOn x.not.ref y) : y = d.var x.ref :=
    (isVariable.dependsOn_iff valid.ordered).mp ((dependsOn_neg valid.ordered isVariable.has).mp dependsOn)
  have eval (v : Valuation) : d.eval v x.not.ref = !v (d.var x.ref) := by
    rw [Region.eval_not valid isVariable.has, isVariable.eval]
  have one : models {d.var x.ref} (fun v => d.eval v x.not.ref) = 1 := by
    simp only [eval]
    rw [← insert_empty_eq, Valuation.models_insert (Finset.notMem_empty _)]
    simp [Valuation.models_empty]
  obtain ⟨counts, countsListed⟩ := counts_models valid.ordered
  have count := counts x.not.ref (d.var x.ref) has (isVariable.var_lt_bottom valid.ordered)
    fun y dependsOn => Nat.le_of_eq (depends y dependsOn)
  have countListed := countsListed x.not [x, x] has (by simp [isVariable]) fun y dependsOn => by
    simp [depends y dependsOn]
  refine ⟨d, x, valid.ordered, isVariable, ?_, ?_⟩
  · have nonzero := isVariable.var_ne_zero valid.ordered
    have scaled : models (Finset.Icc 1 (d.var x.ref)) (fun v => d.eval v x.not.ref) =
        models {d.var x.ref} (fun v => d.eval v x.not.ref) <<< (d.var x.ref - 1) :=
      models_listed valid.ordered has [d.var x.ref] (by simpa using depends) (by simp; omega)
    rw [count, scaled, one, Nat.one_shiftLeft]
  · simpa [one] using countListed

end Diagram

end ProgramAnalysis
