import ProgramAnalysis.Analysis.Reached

/-! The members of reached sets. Partitions only divide the states, so adding and replacing are
described by what they do to the set of all states. -/
namespace ProgramAnalysis

namespace ReachedSet

variable {α ε π : Type}

theorem mem_dropLast_or {x : α} {xs : List α} (mem : x ∈ xs) :
    ∃ last, xs.getLast? = some last ∧ (x = last ∨ x ∈ xs.dropLast) := by
  have nonempty := List.ne_nil_of_mem mem
  refine ⟨xs.getLast nonempty, List.getLast?_eq_some_getLast nonempty, ?_⟩
  rw [← List.dropLast_concat_getLast nonempty, List.mem_append, List.mem_singleton] at mem
  exact mem.symm

theorem mem_of_takeOut? {test : α → Bool} {xs rest : List α} (out : takeOut? test xs = some rest) :
    (∀ x ∈ rest, x ∈ xs) ∧ ∀ x ∈ xs, test x = true ∨ x ∈ rest := by
  induction xs generalizing rest with
  | nil => cases out
  | cons y ys ih =>
    rw [takeOut?] at out
    split at out
    · rename_i passed
      cases out
      constructor
      · intro x mem
        split at mem
        · rename_i last found
          rcases List.mem_cons.mp mem with rfl | mem
          · exact List.mem_cons_of_mem _ (List.mem_of_getLast? found)
          · exact List.mem_cons_of_mem _ (List.dropLast_subset _ mem)
        · cases mem
      · intro x mem
        rcases List.mem_cons.mp mem with rfl | mem
        · exact .inl passed
        · obtain ⟨last, found, place⟩ := mem_dropLast_or mem
          rw [found]
          exact .inr (List.mem_cons.mpr place)
    · obtain ⟨rest', found, rfl⟩ := Option.map_eq_some_iff.mp out
      obtain ⟨sub, kept⟩ := ih found
      constructor
      · intro x mem
        rcases List.mem_cons.mp mem with rfl | mem
        · exact List.mem_cons_self
        · exact List.mem_cons_of_mem _ (sub x mem)
      · intro x mem
        rcases List.mem_cons.mp mem with rfl | mem
        · exact .inr List.mem_cons_self
        · exact (kept x mem).imp_right (List.mem_cons_of_mem _)

theorem mem_setPartition {key : Option Point} {es : List (ε × π)}
    {ps : List (Option Point × List (ε × π))} {x : ε × π} (mem : x ∈ es) :
    x ∈ (setPartition key es ps).flatMap (·.2) := by
  induction ps with
  | nil => simpa [setPartition] using mem
  | cons p ps ih =>
    rw [setPartition]
    split
    · exact List.mem_flatMap.mpr ⟨_, List.mem_cons_self, mem⟩
    · exact List.mem_flatMap.mpr (by
        obtain ⟨q, inside, here⟩ := List.mem_flatMap.mp ih
        exact ⟨q, List.mem_cons_of_mem _ inside, here⟩)

theorem mem_of_mem_setPartition {key : Option Point} {es : List (ε × π)}
    {ps : List (Option Point × List (ε × π))} {x : ε × π}
    (mem : x ∈ (setPartition key es ps).flatMap (·.2)) : x ∈ es ∨ x ∈ ps.flatMap (·.2) := by
  induction ps with
  | nil => exact .inl (by simpa [setPartition] using mem)
  | cons p ps ih =>
    rw [setPartition] at mem
    split at mem
    · simp only [List.flatMap_cons, List.mem_append] at mem ⊢
      exact mem.imp_right .inr
    · simp only [List.flatMap_cons, List.mem_append] at mem ⊢
      rcases mem with mem | mem
      · exact .inr (.inl mem)
      · exact (ih mem).imp_right .inr

theorem mem_setPartition_or {key : Option Point} {es : List (ε × π)}
    {ps : List (Option Point × List (ε × π))} {x : ε × π} (mem : x ∈ ps.flatMap (·.2)) :
    x ∈ (ps.lookup key).getD [] ∨ x ∈ (setPartition key es ps).flatMap (·.2) := by
  induction ps with
  | nil => cases mem
  | cons p ps ih =>
    obtain ⟨k, fs⟩ := p
    rw [setPartition, List.lookup_cons]
    by_cases here : k = key
    · subst here
      simp only [List.flatMap_cons, List.mem_append] at mem
      rw [if_pos rfl, beq_self_eq_true, List.flatMap_cons, List.mem_append]
      exact mem.imp id .inr
    · rw [if_neg here, beq_eq_false_iff_ne.mpr (Ne.symm here)]
      simp only [List.flatMap_cons, List.mem_append] at mem ⊢
      rcases mem with mem | mem
      · exact .inr (.inl mem)
      · exact (ih mem).imp_right .inr

theorem mem_entries_of_mem_partition {r : ReachedSet ε π} {key : Option Point} {x : ε × π}
    (mem : x ∈ r.partition key) : x ∈ r.entries := by
  unfold partition at mem
  cases found : r.partitions.lookup key with
  | none => simp [found] at mem
  | some es =>
    rw [found, Option.getD_some] at mem
    obtain ⟨before, after, split, -⟩ := List.lookup_eq_some_iff.mp found
    exact List.mem_flatMap.mpr ⟨(key, es), by simp [split], mem⟩

theorem of_pop? {r rest : ReachedSet ε π} {x : ε × π} (popped : r.pop? = some (x, rest)) :
    r.waitlist = x :: rest.waitlist ∧ rest.entries = r.entries := by
  unfold pop? at popped
  split at popped
  · cases popped
  · rename_i waiting
    cases popped
    exact ⟨waiting, rfl⟩

theorem waitlist_of_pop?_eq_none {r : ReachedSet ε π} (popped : r.pop? = none) :
    r.waitlist = [] := by
  unfold pop? at popped
  split at popped
  · assumption
  · cases popped

variable [Located ε]

@[simp] theorem mem_entries_add {r : ReachedSet ε π} {e : ε} {p : π} {x : ε × π} :
    x ∈ (r.add e p).entries ↔ x ∈ r.entries ∨ x = (e, p) := by
  constructor
  · intro mem
    rcases mem_of_mem_setPartition mem with mem | mem
    · rcases List.mem_append.mp mem with mem | mem
      · exact .inl (mem_entries_of_mem_partition mem)
      · exact .inr (List.mem_singleton.mp mem)
    · exact .inl mem
  · rintro (mem | rfl)
    · have new := @mem_setPartition_or _ _ (r.key e) (r.partition (r.key e) ++ [(e, p)]) _ _ mem
      rcases new with here | kept
      · exact mem_setPartition (List.mem_append_left _ here)
      · exact kept
    · exact mem_setPartition (List.mem_append_right _ List.mem_cons_self)

theorem mem_entries_of_mem_reached {r : ReachedSet ε π} {e f : ε} (mem : f ∈ r.reached e) :
    ∃ p, (f, p) ∈ r.entries := by
  have inside : f ∈ (r.partition (r.key e)).map (·.1) := by
    unfold reached at mem
    split at mem
    · exact mem
    · exact (List.mem_filter.mp mem).1
  obtain ⟨⟨f, p⟩, here, rfl⟩ := List.mem_map.mp inside
  exact ⟨p, mem_entries_of_mem_partition here⟩

variable [BEq ε]

theorem mem_entries_remove {r : ReachedSet ε π} {e : ε} :
    (∀ x ∈ (r.remove e).entries, x ∈ r.entries) ∧
      ∀ x ∈ r.entries, (x.1 == e) = true ∨ x ∈ (r.remove e).entries := by
  unfold remove
  split
  · rename_i rest out
    obtain ⟨sub, kept⟩ := mem_of_takeOut? out
    constructor
    · intro x mem
      rcases mem_of_mem_setPartition mem with mem | mem
      · exact mem_entries_of_mem_partition (sub x mem)
      · exact mem
    · intro x mem
      rcases @mem_setPartition_or _ _ (r.key e) rest _ _ mem with here | there
      · exact (kept x here).imp_right mem_setPartition
      · exact .inr there
  · exact ⟨fun x mem => mem, fun x mem => .inr mem⟩

/-- A replacement takes away states equal to the old one only, and the new state is there and waits. -/
theorem of_replace {r r' : ReachedSet ε π} {old new : ε} {p : π}
    (replaced : r.replace old new p = .ok r') :
    (∀ x ∈ r'.entries, x ∈ r.entries ∨ x = (new, p)) ∧ (new, p) ∈ r'.entries ∧
      (∀ x ∈ r.entries, (x.1 == old) = true ∨ x ∈ r'.entries) ∧
      r'.waitlist = r.waitlist.filter (fun x => x.1 != old) ++ [(new, p)] := by
  unfold replace at replaced
  split at replaced
  · cases replaced
    obtain ⟨fewer, kept⟩ := mem_entries_remove (r := r) (e := old)
    refine ⟨fun x mem => ?_, ?_, fun x mem => ?_, ?_⟩
    · rcases mem_entries_add.mp mem with mem | rfl
      · exact .inl (fewer x mem)
      · exact .inr rfl
    · exact mem_entries_add.mpr (.inr rfl)
    · exact (kept x mem).imp_right fun mem => mem_entries_add.mpr (.inl mem)
    · have same : (r.remove old).waitlist = r.waitlist := by
        unfold remove
        split <;> rfl
      simp [add, same]
  · cases replaced

end ReachedSet

end ProgramAnalysis
