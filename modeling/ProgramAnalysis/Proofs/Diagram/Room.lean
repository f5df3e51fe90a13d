import Mathlib.Data.Fintype.BigOperators
import Mathlib.Order.Interval.Finset.Nat
import ProgramAnalysis.Proofs.Diagram.Denotations

/-! How much room functions need. A function that depends on `n` variables has at most `3 ^ n` functions
in which some of the variables are fixed. So operations that make no nodes but for these only run out of
numbers for nodes when there are not that many left. -/
namespace ProgramAnalysis

namespace Diagram

variable {d e : Diagram} {r : Ref} {m k : Valuation → Bool} {S : (Valuation → Bool) → Prop}
  {xs : Finset Nat} {n : Nat} {v : Violation}

/-- No other variables make a difference to the function. -/
def OnlyOn (xs : Finset Nat) (m : Valuation → Bool) : Prop :=
  ∀ v w : Valuation, (∀ x ∈ xs, v x = w x) → m v = m w

/-- The function with some of the variables fixed. -/
def fixed (m : Valuation → Bool) (values : xs → Option Bool) (v : Valuation) : Bool :=
  m fun x => if inside : x ∈ xs then (values ⟨x, inside⟩).getD (v x) else v x

theorem OnlyOn.exists_fixed (only : OnlyOn xs m) (of : Cofactor m k) :
    ∃ (values : xs → Option Bool) (flag : Bool), ∀ v, k v = (fixed m values v != flag) := by
  induction of with
  | self => exact ⟨fun _ => none, false, fun v => by simp [fixed]⟩
  | fix x b _ ih =>
    obtain ⟨values, flag, same⟩ := ih
    refine ⟨fun y => if y = x then some ((values y).getD b) else values y, flag, fun v => ?_⟩
    have agree : fixed m values (Function.update v x b) = fixed m
        (fun y => if y = x then some ((values y).getD b) else values y) v := by
      apply only
      intro y inside
      by_cases here : y = x
      · subst here
        simp [inside]
      · simp [inside, here]
    exact (same _).trans (congrArg (· != flag) agree)
  | not _ ih =>
    obtain ⟨values, flag, same⟩ := ih
    exact ⟨values, !flag, fun v => (congrArg Bool.not (same v)).trans (Bool.bne_not ..).symm⟩

/-- Each variable is free, true or false. -/
theorem Builds.size_le_pow {ms : List (Valuation → Bool)} (builds : d.Builds S e)
    (few : ∀ k, S k → (∃ b, ∀ v, k v = b) ∨ ∃ m ∈ ms, Cofactor m k) (only : ∀ m ∈ ms, OnlyOn xs m) :
    e.nodes.size ≤ d.nodes.size + ms.length * 3 ^ xs.card := by
  let values := (Finset.univ : Finset (xs → Option Bool)).toList
  let functions := ms.flatMap fun m => values.map (fixed m)
  have among (k : Valuation → Bool) (of : S k) : (∃ b, ∀ v, k v = b) ∨
      ∃ g ∈ functions, ∃ flag, ∀ v, k v = (g v != flag) := by
    rcases few k of with constant | ⟨m, mem, cofactor⟩
    · exact .inl constant
    · obtain ⟨choice, flag, same⟩ := (only m mem).exists_fixed cofactor
      have here : fixed m choice ∈ functions :=
        List.mem_flatMap.mpr ⟨m, mem, List.mem_map_of_mem (by simp [values])⟩
      exact .inr ⟨_, here, flag, same⟩
  simpa [functions, values] using builds.size_le among

/-- There are no numbers for `n` nodes more. -/
def Short (d : Diagram) (n : Nat) (v : Violation) : Prop :=
  v = .nodesExhausted ∧ 0x7fffffff ≤ d.nodes.size + n + 2

theorem Exhausts.short {ms : List (Valuation → Bool)} (exhausts : d.Exhausts S v)
    (few : ∀ k, S k → (∃ b, ∀ v, k v = b) ∨ ∃ m ∈ ms, Cofactor m k) (only : ∀ m ∈ ms, OnlyOn xs m) :
    d.Short (ms.length * 3 ^ xs.card) v := by
  obtain ⟨same, e, builds, full⟩ := exhausts
  have bound := builds.size_le_pow few only
  exact ⟨same, Nat.le_trans full (Nat.add_le_add_right bound 2)⟩

theorem OnlyOn.update (only : OnlyOn xs m) (x : Nat) (b : Bool) :
    OnlyOn xs fun v => m (Function.update v x b) := by
  intro v w same
  apply only
  intro y inside
  by_cases here : y = x
  · simp [here]
  · simp [here, same y inside]

theorem OnlyOn.cofactor (only : OnlyOn xs m) (of : Cofactor m k) : OnlyOn xs k := by
  induction of with
  | self => exact only
  | fix x b _ ih => exact ih.update x b
  | not _ ih => exact fun v w same => congrArg Bool.not (ih v w same)

theorem OnlyOn.quantify (only : OnlyOn xs m) (x : Nat) : OnlyOn xs (Valuation.quantify x m) := by
  intro v w same
  exact congrArg₂ (· || ·) (only.update x false v w same) (only.update x true v w same)

/-- There are `2 ^ 2 ^ n` functions of `n` variables, and no two nodes have the same. -/
theorem Ordered.size_le (ordered : e.Ordered) (start : Nat) (only : ∀ i, start ≤ i → i < e.nodes.size →
    OnlyOn xs fun v => e.eval v (.node (i + 2))) : e.nodes.size ≤ start + 2 ^ 2 ^ xs.card := by
  let table (i : Fin (e.nodes.size - start)) (values : xs → Bool) : Bool :=
    e.eval (fun x => if inside : x ∈ xs then values ⟨x, inside⟩ else false) (.node (start + i + 2))
  have injective : Function.Injective table := by
    intro i j equal
    have insideI : start + i < e.nodes.size := by omega
    have insideJ : start + j < e.nodes.size := by omega
    have reads (i : Fin (e.nodes.size - start)) (inside : start + i < e.nodes.size)
        (v : Valuation) : table i (fun x => v x) = e.eval v (.node (start + i + 2)) :=
      only _ (Nat.le_add_right _ _) inside _ _ fun x mem => dif_pos mem
    have same (v : Valuation) : e.eval v (.node (start + i + 2)) =
        (e.eval v (.node (start + j + 2)) != false) := by
      rw [← reads i insideI, ← reads j insideJ, equal, Bool.bne_false]
    have index := ordered.eq_of_complementIf insideI insideJ same
    apply Fin.ext
    omega
  have count := Fintype.card_le_of_injective table injective
  simp only [Fintype.card_fin, Fintype.card_fun, Fintype.card_bool, Fintype.card_coe] at count
  omega

theorem Builds.size_le_of_onlyOn (builds : d.Builds S e) (only : ∀ k, S k → OnlyOn xs k) :
    e.nodes.size ≤ d.nodes.size + 2 ^ 2 ^ xs.card :=
  builds.valid.ordered.size_le d.nodes.size fun i new inside => only _ (builds.needed i new inside)

theorem not_exhausts_of_onlyOn (only : ∀ k, S k → OnlyOn xs k)
    (room : d.nodes.size + 2 ^ 2 ^ xs.card + 2 < 0x7fffffff) : ¬ d.Exhausts S v := by
  rintro ⟨-, e, builds, full⟩
  have bound := builds.size_le_of_onlyOn only
  unfold Full at full
  omega

theorem Valid.onlyOn (valid : d.Valid) (le : d.vars ≤ n) (r : Ref) :
    OnlyOn (Finset.Icc 1 n) (d.eval · r) := by
  intro v w same
  apply valid.eval_congr
  intro x inUse nonzero
  exact same x (Finset.mem_Icc.mpr ⟨Nat.pos_of_ne_zero nonzero, Nat.le_trans inUse le⟩)

theorem Valid.size_le_pow (valid : d.Valid) (le : d.vars ≤ n) : d.nodes.size ≤ 2 ^ 2 ^ n := by
  have bound := valid.ordered.size_le 0 fun i _ _ => valid.onlyOn le (.node (i + 2))
  rwa [Nat.card_Icc, Nat.add_sub_cancel, Nat.zero_add] at bound

/-- Four variables have few functions. -/
theorem Valid.not_exhausts (valid : d.Valid) (few : d.vars ≤ 4)
    (only : ∀ k, S k → OnlyOn (Finset.Icc 1 d.vars) k) : ¬ d.Exhausts S v := by
  have known := valid.size_le_pow few
  have new : 2 ^ 2 ^ d.vars ≤ 2 ^ 2 ^ 4 :=
    Nat.pow_le_pow_right (by decide) (Nat.pow_le_pow_right (by decide) few)
  apply not_exhausts_of_onlyOn only
  rw [Nat.card_Icc, Nat.add_sub_cancel]
  omega

/-! ### Paths -/

/-- Every variable doubles the paths at most. -/
theorem length_paths_le (ordered : d.Ordered)
    (inUse : ∀ (i : Nat) (node : Node), d.nodes[i]? = some node → node.var ≤ n) (r : Ref) :
    (d.paths r).length ≤ 2 ^ (n + 1 - d.level r) := by
  cases inner : d.node? r with
  | none =>
    by_cases zero : r = .zero
    · simp [zero, paths_zero]
    · rw [paths_of_terminal inner zero]
      exact Nat.one_le_two_pow
  | some node =>
    have smaller := weight_lt_of_node? inner
    have high := length_paths_le ordered inUse (d.high r)
    have low := length_paths_le ordered inUse (d.low r)
    have root := inUse _ _ (getElem?_of_node? inner)
    have belowHigh := ordered.level_lt_high inner
    have belowLow := ordered.level_lt_low inner
    have exponent : n + 1 - d.level r = (n - d.level r) + 1 := by
      rw [level_of_node? inner]
      omega
    have half (b : Nat) (below : d.level r < b) : 2 ^ (n + 1 - b) ≤ 2 ^ (n - d.level r) :=
      Nat.pow_le_pow_right (by decide) (by omega)
    rw [paths_of_node? inner, List.length_append, List.length_map, List.length_map, exponent,
      Nat.pow_succ]
    have := half _ belowHigh
    have := half _ belowLow
    omega
termination_by r.weight

/-- A path has a literal of each variable at most. -/
theorem length_path_le (ordered : d.Ordered) (small : d.VarsBelow 0x80000000)
    (inUse : ∀ (i : Nat) (node : Node), d.nodes[i]? = some node → node.var ≤ n) {path : List Int}
    (mem : path ∈ d.paths r) : path.length ≤ n := by
  have increasing := (increasing_of_mem_paths ordered small mem).1
  have once : (path.map Int.natAbs).Nodup :=
    List.pairwise_map.mpr (increasing.imp fun less => Nat.ne_of_lt less)
  have within : (path.map Int.natAbs).toFinset ⊆ Finset.Icc 1 n := by
    intro x inside
    obtain ⟨lit, here, rfl⟩ := List.mem_map.mp (List.mem_toFinset.mp inside)
    obtain ⟨i, node, known, same⟩ := exists_node_of_mem_paths small mem lit here
    have nonzero := (d.reduced i node known).var_ne_zero
    rw [same, Finset.mem_Icc]
    exact ⟨Nat.pos_of_ne_zero nonzero, inUse i node known⟩
  have count := Finset.card_le_card within
  rwa [List.toFinset_card_of_nodup once, List.length_map, Nat.card_Icc, Nat.add_sub_cancel] at count

end Diagram

end ProgramAnalysis
