import Mathlib.Data.List.Nodup
import ProgramAnalysis.Diagram.Paths
import ProgramAnalysis.Proofs.Diagram.Canonicity

/-! The paths of a function are its models: a valuation satisfies a function exactly if it satisfies
every literal of one of its paths. Searching the paths of a function is searching the list of them. -/
namespace ProgramAnalysis

namespace Diagram

variable {d : Diagram} {r : Ref} {n : Node} {v : Valuation}

/-- The variable of a literal has the value of its sign. -/
def Satisfies (v : Valuation) (lit : Int) : Prop := v lit.natAbs = decide (0 < lit)

instance (v : Valuation) (l : Int) : Decidable (Satisfies v l) :=
  inferInstanceAs (Decidable (_ = _))

theorem literal_true {x : Nat} (small : x < 0x80000000) : literal x true = x := by
  simp only [literal, if_true, Int.bmod_def]
  rw [Int.emod_eq_of_lt (by omega) (by omega), if_pos (by omega)]

theorem literal_false {x : Nat} (small : x < 0x80000000) : literal x false = -x := by
  have := literal_true small
  simp only [literal, if_true, Bool.false_eq_true, if_false] at this ⊢
  rw [this]

theorem satisfies_literal {x : Nat} (nonzero : x ≠ 0) (small : x < 0x80000000) (b : Bool) :
    Satisfies v (literal x b) ↔ v x = b := by
  cases b with
  | true =>
    have positive : 0 < x := Nat.pos_of_ne_zero nonzero
    simp [Satisfies, literal_true small, positive]
  | false =>
    have notPositive : ¬ (x : Int) < 0 := by omega
    simp [Satisfies, literal_false small, notPositive]

/-- Variables whose literals are 32-bit numbers. -/
def VarsBelow (d : Diagram) (bound : Nat) : Prop :=
  ∀ (i : Nat) (n : Node), d.nodes[i]? = some n → n.var < bound

theorem paths_zero (d : Diagram) : d.paths .zero = [] := by
  rw [paths]
  split
  · rfl
  · rename_i n inner
    rw [node?_eq_none_of_index d (by decide)] at inner
    cases inner

theorem paths_of_node? (inner : d.node? r = some n) :
    d.paths r = (d.paths (d.high r)).map (literal n.var true :: ·) ++
      (d.paths (d.low r)).map (literal n.var false :: ·) := by
  rw [paths]
  split
  · rename_i terminal
    rw [inner] at terminal
    cases terminal
  · rename_i n' here
    cases inner.symm.trans here
    rfl

theorem paths_of_terminal (terminal : d.node? r = none) (nonzero : r ≠ .zero) : d.paths r = [[]] := by
  rw [paths]
  split
  · rw [if_neg nonzero]
  · rename_i n inner
    rw [terminal] at inner
    cases inner

theorem eval_iff_paths {r : Ref} (known : d.Ordered) (small : d.VarsBelow 0x80000000) (has : d.Has r)
    (v : Valuation) :
    d.eval v r = true ↔ ∃ path ∈ d.paths r, ∀ lit ∈ path, Satisfies v lit := by
  rw [paths]
  split
  · rename_i terminal
    rcases eq_constant_of_terminal has terminal with rfl | rfl
    · simp [show Ref.one ≠ Ref.zero by decide]
    · simp
  · rename_i n inner
    have smaller := weight_lt_of_node? inner
    have root := getElem?_of_node? inner
    have nonzero := (d.reduced _ _ root).var_ne_zero
    have onHigh := satisfies_literal (v := v) nonzero (small _ _ root) true
    have onLow := satisfies_literal (v := v) nonzero (small _ _ root) false
    have high := eval_iff_paths known small (known.high_known has) v
    have low := eval_iff_paths known small (known.low_known has) v
    simp only [List.mem_append, List.mem_map, or_and_right, exists_or, exists_exists_and_eq_and,
      List.forall_mem_cons, onHigh, onLow]
    rw [eval_of_node? inner]
    cases v n.var with
    | true => simpa using high
    | false => simpa using low
termination_by r.weight

/-! ### The literals of a path -/

theorem natAbs_literal {x : Nat} (small : x < 0x80000000) (b : Bool) : (literal x b).natAbs = x := by
  cases b with
  | true => rw [literal_true small, Int.natAbs_natCast]
  | false => rw [literal_false small, Int.natAbs_neg, Int.natAbs_natCast]

theorem eq_nil_of_mem_paths {path : List Int} (terminal : d.node? r = none)
    (mem : path ∈ d.paths r) : path = [] := by
  rw [paths] at mem
  split at mem
  · split at mem
    · cases mem
    · exact List.mem_singleton.mp mem
  · rename_i n inner
    rw [terminal] at inner
    cases inner

theorem cons_of_mem_paths {path : List Int} (inner : d.node? r = some n) (mem : path ∈ d.paths r) :
    ∃ b, ∃ rest ∈ d.paths (if b then d.high r else d.low r), path = literal n.var b :: rest := by
  rw [paths_of_node? inner] at mem
  rcases List.mem_append.mp mem with mem | mem
  · obtain ⟨rest, inside, rfl⟩ := List.mem_map.mp mem
    exact ⟨true, rest, inside, rfl⟩
  · obtain ⟨rest, inside, rfl⟩ := List.mem_map.mp mem
    exact ⟨false, rest, inside, rfl⟩

theorem exists_node_of_mem_paths (small : d.VarsBelow 0x80000000) {r : Ref} {path : List Int}
    (mem : path ∈ d.paths r) : ∀ lit ∈ path, ∃ (i : Nat) (n : Node), d.nodes[i]? = some n ∧
      lit.natAbs = n.var := by
  cases inner : d.node? r with
  | none =>
    rw [eq_nil_of_mem_paths inner mem]
    exact List.forall_mem_nil _
  | some n =>
    obtain ⟨b, rest, inside, rfl⟩ := cons_of_mem_paths inner mem
    have smaller := weight_lt_of_node? inner
    have root := getElem?_of_node? inner
    have below : (if b then d.high r else d.low r).weight < r.weight := by
      cases b with
      | true => exact smaller.2
      | false => exact smaller.1
    rw [List.forall_mem_cons]
    exact ⟨⟨_, n, root, natAbs_literal (small _ _ root) b⟩, exists_node_of_mem_paths small inside⟩
termination_by r.weight

theorem natAbs_ne_zero_of_mem_paths (small : d.VarsBelow 0x80000000) {path : List Int}
    (mem : path ∈ d.paths r) : ∀ lit ∈ path, lit.natAbs ≠ 0 := by
  intro lit inside
  obtain ⟨i, n, here, same⟩ := exists_node_of_mem_paths small mem lit inside
  rw [same]
  exact (d.reduced i n here).var_ne_zero

theorem increasing_of_mem_paths (ordered : d.Ordered) (small : d.VarsBelow 0x80000000) {r : Ref}
    {path : List Int} (mem : path ∈ d.paths r) :
    path.Pairwise (fun a b => a.natAbs < b.natAbs) ∧ ∀ lit ∈ path, d.level r ≤ lit.natAbs := by
  cases inner : d.node? r with
  | none =>
    rw [eq_nil_of_mem_paths inner mem]
    exact ⟨.nil, List.forall_mem_nil _⟩
  | some n =>
    obtain ⟨b, rest, inside, rfl⟩ := cons_of_mem_paths inner mem
    have smaller := weight_lt_of_node? inner
    have below : (if b then d.high r else d.low r).weight < r.weight ∧
        d.level r < d.level (if b then d.high r else d.low r) := by
      cases b with
      | true => exact ⟨smaller.2, ordered.level_lt_high inner⟩
      | false => exact ⟨smaller.1, ordered.level_lt_low inner⟩
    obtain ⟨increasing, above⟩ := increasing_of_mem_paths ordered small inside
    have first : (literal n.var b).natAbs = d.level r := by
      rw [natAbs_literal (small _ _ (getElem?_of_node? inner)), level_of_node? inner]
    rw [List.pairwise_cons, List.forall_mem_cons, first]
    refine ⟨⟨fun lit mem => ?_, increasing⟩, Nat.le_refl _, fun lit mem => ?_⟩
    · exact Nat.lt_of_lt_of_le below.2 (above lit mem)
    · exact Nat.le_of_lt (Nat.lt_of_lt_of_le below.2 (above lit mem))
termination_by r.weight
decreasing_by exact below.1

/-- No path contradicts itself. -/
theorem exists_satisfies (ordered : d.Ordered) (small : d.VarsBelow 0x80000000) {path : List Int}
    (mem : path ∈ d.paths r) : ∃ v : Valuation, ∀ lit ∈ path, Satisfies v lit := by
  refine ⟨fun x => decide ((x : Int) ∈ path), fun lit inside => ?_⟩
  have nonzero := natAbs_ne_zero_of_mem_paths small mem lit inside
  obtain ⟨increasing, -⟩ := increasing_of_mem_paths ordered small mem
  have once : (path.map Int.natAbs).Nodup :=
    List.pairwise_map.mpr (increasing.imp fun less => Nat.ne_of_lt less)
  rw [Satisfies, decide_eq_decide]
  constructor
  · intro positive
    have same := List.inj_on_of_nodup_map once positive inside (Int.natAbs_natCast _)
    omega
  · intro positive
    rwa [Int.natAbs_of_nonneg (Int.le_of_lt positive)]

variable {m : Type → Type} [Monad m] [LawfulMonad m]

theorem anyM_append {α : Type} (test : α → m Bool) (xs ys : List α) :
    (xs ++ ys).anyM test = xs.anyM test >>= fun b => if b then pure true else ys.anyM test := by
  induction xs with
  | nil => simp [List.anyM]
  | cons x xs ih =>
    simp only [List.cons_append, List.anyM, ih, bind_assoc]
    refine bind_congr fun b => ?_
    cases b <;> simp

theorem anyPath_eq (d : Diagram) (test : List Int → m Bool) (r : Ref) (taken : List Int) :
    d.anyPath test r taken = ((d.paths r).map (taken.reverse ++ ·)).anyM test := by
  rw [anyPath, paths]
  split
  · split
    · simp
    · simp only [List.map_cons, List.map_nil, List.append_nil, List.anyM]
      rw [← bind_pure (test taken.reverse)]
      simp only [bind_assoc, pure_bind]
      refine bind_congr fun b => ?_
      cases b <;> rfl
  · rename_i n inner
    have smaller := weight_lt_of_node? inner
    have high := d.anyPath_eq test (d.high r) (literal n.var true :: taken)
    have low := d.anyPath_eq test (d.low r) (literal n.var false :: taken)
    have prefixed (b : Bool) (paths : List (List Int)) :
        (paths.map (literal n.var b :: ·)).map (taken.reverse ++ ·) =
          paths.map ((literal n.var b :: taken).reverse ++ ·) := by
      simp [Function.comp_def]
    rw [List.map_append, prefixed, prefixed, anyM_append, ← high, ← low]
termination_by r.weight

end Diagram

end ProgramAnalysis
