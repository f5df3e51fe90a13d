import Mathlib.Data.List.Dedup
import ProgramAnalysis.Proofs.Diagram.Room
import ProgramAnalysis.Proofs.Solver.Skeleton

/-! How much room skeletons need. The formulas on the way to a formula are at most twice as many as its
parts, and each of them needs the nodes of one function of the atoms. -/
namespace ProgramAnalysis

open Diagram (OnlyOn)

namespace Formula

mutual

theorem length_stages_lt (f : Formula) : f.stages.length < 2 * f.size := by
  cases f with
  | bool | prop | atom => simp [stages, size]
  | not f =>
    have := length_stages_lt f
    rw [stages, size]
    omega
  | nary c fs =>
    have := length_stagesAll_le c [] fs
    rw [stages, size]
    omega
  | iff a b =>
    have := length_stages_lt a
    have := length_stages_lt b
    simp only [stages, size, List.length_append, List.length_singleton]
    omega

theorem length_stagesAll_le (c : Connective) (done fs : List Formula) :
    (stagesAll c done fs).length ≤ 2 * sizeAll fs := by
  cases fs with
  | nil => simp [stagesAll]
  | cons f fs =>
    have := length_stages_lt f
    have := length_stagesAll_le c (done ++ [f]) fs
    simp only [stagesAll, sizeAll, List.length_append, List.length_cons]
    omega

end

end Formula

namespace SkeletonState

theorem onlyOn_value (atoms : Array Formula) (f : Formula) :
    OnlyOn (Finset.Icc 1 atoms.size) fun v => f.value (leaf atoms v) := by
  intro v w same
  apply Formula.value_congr f
  intro a _
  unfold leaf
  cases found : atoms.idxOf? a with
  | none => rfl
  | some i =>
    have bound := (Array.getElem?_eq_some_iff.mp (getElem?_of_idxOf? found)).1
    exact same (i + 1) (Finset.mem_Icc.mpr ⟨Nat.succ_pos i, bound⟩)

theorem size_foldl_note_le {atoms : Array Formula} {fs gs : List Formula} (nodup : atoms.toList.Nodup)
    (within : ∀ a ∈ atoms, a ∈ gs) (more : ∀ f ∈ fs, f ∈ gs) :
    (fs.foldl note atoms).size ≤ gs.dedup.length := by
  induction fs generalizing atoms with
  | nil =>
    have subset : atoms.toList ⊆ gs.dedup := fun a mem =>
      List.mem_dedup.mpr (within a (Array.mem_toList_iff.mp mem))
    simpa using (List.subperm_of_subset nodup subset).length_le
  | cons f fs ih =>
    obtain ⟨here, rest⟩ := List.forall_mem_cons.mp more
    rw [List.foldl_cons]
    apply ih _ _ rest
    · unfold note
      split
      · exact nodup
      · exact nodup_push nodup (by assumption)
    · unfold note
      split
      · exact within
      · intro a mem
        rcases Array.mem_push.mp mem with mem | rfl
        · exact within a mem
        · exact here

end SkeletonState

namespace Skeleton

theorem size_atomsOf_le (f : Formula) : (atomsOf f).size ≤ f.leaves.dedup.length :=
  SkeletonState.size_foldl_note_le (by simp) (by simp) fun _ => id

/-- A bound for the nodes of the skeleton of a formula. -/
def room (f : Formula) : Nat := 2 * f.size * 3 ^ f.leaves.dedup.length

/-- Only large formulas need too many nodes. -/
theorem Exhausts.room_le {f : Formula} {v : Violation} (exhausts : Exhausts f v) :
    v = .nodesExhausted ∧ 0x7fffffff ≤ room f + 2 := by
  obtain ⟨d, start, exhausts⟩ := exhausts
  obtain ⟨-, empty, -⟩ := Diagram.ofBits_valid start
  let functions := f.stages.map fun g v => g.value (SkeletonState.leaf (atomsOf f) v)
  have short : d.Short (functions.length * 3 ^ (Finset.Icc 1 (atomsOf f).size).card) v := by
    apply exhausts.short
    · rintro k ⟨g, stage, of⟩
      exact .inr ⟨_, List.mem_map_of_mem stage, of⟩
    · exact List.forall_mem_map.mpr fun g _ => SkeletonState.onlyOn_value (atomsOf f) g
  obtain ⟨same, full⟩ := short
  rw [List.length_map, Nat.card_Icc, Nat.add_sub_cancel, empty, Array.size_empty, Nat.zero_add] at full
  have enough : f.stages.length * 3 ^ (atomsOf f).size ≤ room f :=
    Nat.mul_le_mul (Nat.le_of_lt f.length_stages_lt)
      (Nat.pow_le_pow_right (by decide) (size_atomsOf_le f))
  exact ⟨same, Nat.le_trans full (Nat.add_le_add_right enough 2)⟩

theorem not_exhausts {f : Formula} (fits : room f + 2 < 0x7fffffff) (v : Violation) :
    ¬ Exhausts f v := fun exhausts => absurd exhausts.room_le.2 (Nat.not_le.mpr fits)

theorem exists_ofFormula {f : Formula} (fits : room f + 2 < 0x7fffffff) : ∃ k, ofFormula f = .ok k := by
  rcases ofFormula_cases f with ⟨k, made, -⟩ | ⟨v, -, exhausts⟩
  · exact ⟨k, made⟩
  · exact (not_exhausts fits v exhausts).elim

end Skeleton

end ProgramAnalysis
