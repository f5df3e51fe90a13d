import ProgramAnalysis.Proofs.Analysis.Reached
import Mathlib.Data.List.Perm.Basic

/-! Reached sets as multisets. A state may be reached more than once, so what a replacement leaves is
told by counting: it takes one copy of the old state out of its partition. -/
namespace ProgramAnalysis

namespace ReachedSet

variable {α ε π : Type}

theorem takeOut?_perm {test : α → Bool} {xs rest : List α} (out : takeOut? test xs = some rest) :
    ∃ x, test x = true ∧ xs.Perm (x :: rest) := by
  induction xs generalizing rest with
  | nil => cases out
  | cons y ys ih =>
    rw [takeOut?] at out
    split at out
    · rename_i passed
      cases out
      apply Exists.intro y
      constructor
      · exact passed
      · apply List.Perm.cons
        cases found : ys.getLast? with
        | none => rw [List.getLast?_eq_none_iff.mp found]
        | some last =>
          have split := List.dropLast_append_getLast? last found
          calc ys = ys.dropLast ++ [last] := split.symm
            List.Perm _ (last :: ys.dropLast) := List.perm_append_singleton last _
    · obtain ⟨rest', found, rfl⟩ := Option.map_eq_some_iff.mp out
      obtain ⟨x, passed, perm⟩ := ih found
      exact ⟨x, passed, (perm.cons y).trans (.swap x y rest')⟩

theorem takeOut?_eq_none {test : α → Bool} {xs : List α} (out : takeOut? test xs = none) :
    ∀ x ∈ xs, test x = false := by
  induction xs with
  | nil =>
    intro x mem
    cases mem
  | cons y ys ih =>
    rw [takeOut?] at out
    split at out
    · cases out
    · rename_i failed
      intro x mem
      rcases List.mem_cons.mp mem with rfl | mem
      · exact Bool.eq_false_iff.mpr failed
      · exact ih (Option.map_eq_none_iff.mp out) x mem

theorem setPartition_perm (key : Option Point) (es : List (ε × π))
    (ps : List (Option Point × List (ε × π))) :
    ((setPartition key es ps).flatMap (·.2) ++ (ps.lookup key).getD []).Perm
      (es ++ ps.flatMap (·.2)) := by
  induction ps with
  | nil => simp [setPartition]
  | cons p ps ih =>
    obtain ⟨k, fs⟩ := p
    rw [setPartition, List.lookup_cons]
    by_cases here : k = key
    · subst here
      rw [if_pos rfl, beq_self_eq_true]
      simp only [List.flatMap_cons, List.append_assoc, Option.getD_some]
      exact (List.perm_append_comm).append_left es
    · rw [if_neg here, beq_eq_false_iff_ne.mpr (Ne.symm here)]
      simp only [List.flatMap_cons, List.append_assoc]
      calc fs ++ ((setPartition key es ps).flatMap (·.2) ++ (ps.lookup key).getD [])
        List.Perm _ (fs ++ (es ++ ps.flatMap (·.2))) := ih.append_left fs
        List.Perm _ (es ++ (fs ++ ps.flatMap (·.2))) := by
          rw [← List.append_assoc, ← List.append_assoc]
          exact List.perm_append_comm.append_right _

theorem keys_setPartition (key : Option Point) (es : List (ε × π))
    (ps : List (Option Point × List (ε × π))) :
    (setPartition key es ps).map (·.1) =
      if key ∈ ps.map (·.1) then ps.map (·.1) else ps.map (·.1) ++ [key] := by
  induction ps with
  | nil => rfl
  | cons p ps ih =>
    obtain ⟨k, fs⟩ := p
    rw [setPartition]
    by_cases here : k = key
    · simp [here]
    · rw [if_neg here, List.map_cons, ih]
      simp only [List.map_cons, List.mem_cons, Ne.symm here, false_or]
      split <;> rfl

/-- The reached states, as often as they are reached. -/
def states (r : ReachedSet ε π) : List ε := r.entries.map (·.1)

def waiting (r : ReachedSet ε π) : List ε := r.waitlist.map (·.1)

variable [Located ε]

/-- The partitions divide the states by their keys. -/
structure Partitioned (r : ReachedSet ε π) : Prop where
  keys : (r.partitions.map (·.1)).Nodup
  inside : ∀ p ∈ r.partitions, ∀ x ∈ p.2, r.key x.1 = p.1

theorem partitioned_empty (specialized : Bool) :
    (ReachedSet.empty specialized : ReachedSet ε π).Partitioned :=
  ⟨List.nodup_nil, fun _ mem => (List.not_mem_nil mem).elim⟩

variable {r r' : ReachedSet ε π}

theorem Partitioned.entries_filter (divided : r.Partitioned) (key : Option Point) :
    r.entries.filter (fun x => r.key x.1 = key) = r.partition key := by
  obtain ⟨keys, inside⟩ := divided
  unfold entries partition
  generalize r.partitions = ps at keys inside
  induction ps with
  | nil => rfl
  | cons p ps ih =>
    obtain ⟨k, es⟩ := p
    obtain ⟨fresh, keys⟩ := List.nodup_cons.mp keys
    obtain ⟨here, inside⟩ := List.forall_mem_cons.mp inside
    rw [List.flatMap_cons, List.filter_append, ih keys inside, List.lookup_cons]
    by_cases same : k = key
    · subst same
      have none : ps.lookup k = none := by
        apply List.lookup_eq_none_iff.mpr
        intro q mem
        have other : q.1 ≠ k := fun eq => fresh (List.mem_map.mpr ⟨q, mem, eq⟩)
        simpa using other.symm
      rw [beq_self_eq_true, none, List.filter_eq_self.mpr]
      · simp
      · intro x mem
        simpa using here x mem
    · rw [beq_eq_false_iff_ne.mpr (Ne.symm same), List.filter_eq_nil_iff.mpr]
      · rfl
      · intro x mem
        simpa [here x mem] using same

theorem Partitioned.reached_eq (divided : r.Partitioned) (e : ε) :
    r.reached e = r.states.filter fun f => Located.point? f = Located.point? e := by
  unfold reached states
  rw [← divided.entries_filter (r.key e), List.filter_map]
  cases specialized : r.specialized with
  | true =>
    rw [if_pos rfl]
    simp only [key, specialized, if_true, Function.comp_def]
  | false =>
    simp only [key, specialized, Bool.false_eq_true, if_false, Function.comp_def, decide_true,
      List.filter_true, List.filter_map]

theorem Partitioned.mem_reached (divided : r.Partitioned) {e f : ε} :
    f ∈ r.reached e ↔ f ∈ r.states ∧ Located.point? f = Located.point? e := by
  rw [divided.reached_eq, List.mem_filter, decide_eq_true_iff]

theorem Partitioned.set (divided : r.Partitioned) {key : Option Point} {es : List (ε × π)}
    {waitlist : List (ε × π)} {size : Nat} (same : ∀ x ∈ es, r.key x.1 = key) :
    ({ r with partitions := setPartition key es r.partitions, waitlist, size } :
      ReachedSet ε π).Partitioned := by
  constructor
  · show ((setPartition key es r.partitions).map (·.1)).Nodup
    rw [keys_setPartition]
    split
    · exact divided.keys
    · rename_i fresh
      apply List.nodup_append.mpr
      refine ⟨divided.keys, List.pairwise_singleton _ key, fun k mem k' mem' eq => fresh ?_⟩
      rw [← List.mem_singleton.mp mem', ← eq]
      exact mem
  · show ∀ p ∈ setPartition key es r.partitions, ∀ x ∈ p.2, r.key x.1 = p.1
    have inside := divided.inside
    generalize r.partitions = ps at inside
    induction ps with
    | nil =>
      intro p mem
      rw [setPartition, List.mem_singleton] at mem
      rw [mem]
      exact same
    | cons q qs ih =>
      obtain ⟨here, rest⟩ := List.forall_mem_cons.mp inside
      rw [setPartition]
      split
      · rename_i eq
        exact List.forall_mem_cons.mpr ⟨fun x mem => eq ▸ same x mem, rest⟩
      · exact List.forall_mem_cons.mpr ⟨here, ih rest⟩

theorem Partitioned.key_of_mem (divided : r.Partitioned) {key : Option Point} {x : ε × π}
    (mem : x ∈ r.partition key) : r.key x.1 = key := by
  rw [← divided.entries_filter] at mem
  simpa using (List.mem_filter.mp mem).2

theorem Partitioned.pop (divided : r.Partitioned) {x : ε × π} (popped : r.pop? = some (x, r')) :
    r'.Partitioned ∧ r'.states = r.states ∧ r.waiting = x.1 :: r'.waiting := by
  obtain ⟨waitlist, entries⟩ := of_pop? popped
  refine ⟨?_, ?_, ?_⟩
  · unfold pop? at popped
    split at popped
    · cases popped
    · cases popped
      exact ⟨divided.keys, divided.inside⟩
  · rw [states, entries, states]
  · rw [waiting, waitlist, List.map_cons, waiting]

theorem Partitioned.add (divided : r.Partitioned) (e : ε) (p : π) : (r.add e p).Partitioned := by
  apply divided.set
  intro x mem
  rcases List.mem_append.mp mem with mem | mem
  · exact divided.key_of_mem mem
  · rw [List.mem_singleton.mp mem]

@[simp] theorem states_add (r : ReachedSet ε π) (e : ε) (p : π) :
    (r.add e p).states.Perm (e :: r.states) := by
  have whole := setPartition_perm (r.key e) (r.partition (r.key e) ++ [(e, p)]) r.partitions
  -- The old partition stands on both sides of `whole` and is cancelled.
  have entries : (r.add e p).entries.Perm ((e, p) :: r.entries) := by
    apply (List.perm_append_right_iff (r.partition (r.key e))).mp
    apply whole.trans
    rw [List.append_assoc]
    exact List.perm_append_comm
  exact entries.map (·.1)

@[simp] theorem waiting_add (r : ReachedSet ε π) (e : ε) (p : π) :
    (r.add e p).waiting = r.waiting ++ [e] := by
  simp [add, waiting]

variable [BEq ε]

theorem Partitioned.remove (divided : r.Partitioned) (e : ε) : (r.remove e).Partitioned := by
  unfold ReachedSet.remove
  split
  · rename_i rest out
    apply divided.set
    intro x mem
    exact divided.key_of_mem ((mem_of_takeOut? out).1 x mem)
  · exact divided

/-- Either a state equal to `e` is taken away, or there is none and nothing changes. Equal states are at
the same point, so the partition of `e` has all of them. -/
theorem Partitioned.remove_cases (divided : r.Partitioned) {e : ε}
    (located : ∀ f : ε, f == e → Located.point? f = Located.point? e) :
    (∃ f, (f == e) = true ∧ r.states.Perm (f :: (r.remove e).states) ∧
      (r.remove e).size = r.size - 1) ∨
    (r.remove e = r ∧ ∀ f ∈ r.states, (f == e) = false) := by
  cases out : takeOut? (fun entry => entry.1 == e) (r.partition (r.key e)) with
  | some rest =>
    obtain ⟨x, same, perm⟩ := takeOut?_perm out
    have whole := setPartition_perm (r.key e) rest r.partitions
    have entries : (x :: (setPartition (r.key e) rest r.partitions).flatMap (·.2)).Perm
        r.entries := by
      apply (List.perm_append_right_iff rest).mp
      calc x :: (setPartition (r.key e) rest r.partitions).flatMap (·.2) ++ rest
        List.Perm _ ((setPartition (r.key e) rest r.partitions).flatMap (·.2) ++ x :: rest) :=
          List.perm_middle.symm
        List.Perm _ ((setPartition (r.key e) rest r.partitions).flatMap (·.2) ++
            r.partition (r.key e)) := perm.symm.append_left _
        List.Perm _ (rest ++ r.entries) := whole
        List.Perm _ (r.entries ++ rest) := List.perm_append_comm
    left
    refine ⟨x.1, same, ?_, ?_⟩
    · simpa [ReachedSet.remove, out, states, ReachedSet.entries] using entries.symm.map (·.1)
    · simp [ReachedSet.remove, out]
  | none =>
    right
    constructor
    · simp [ReachedSet.remove, out]
    · intro f mem
      obtain ⟨x, inside, rfl⟩ := List.mem_map.mp mem
      by_cases here : r.key x.1 = r.key e
      · apply takeOut?_eq_none out
        rw [← divided.entries_filter]
        exact List.mem_filter.mpr ⟨inside, decide_eq_true here⟩
      · apply Bool.eq_false_iff.mpr
        intro same
        apply here
        simp only [key, located x.1 same]

variable [LawfulBEq ε]

theorem Partitioned.states_remove (divided : r.Partitioned) (e : ε) :
    (r.remove e).states.Perm (r.states.erase e) := by
  have located (f : ε) (same : f == e) : Located.point? f = Located.point? e := by
    rw [eq_of_beq same]
  rcases divided.remove_cases located with ⟨f, same, perm, -⟩ | ⟨unchanged, missing⟩
  · have all := perm.erase e
    rw [eq_of_beq same, List.erase_cons_head] at all
    exact all.symm
  · rw [unchanged, List.erase_of_not_mem]
    intro mem
    simpa using missing e mem

/-- A replacement exchanges one copy of the old state for the new one; all copies of the old state
wait no longer. -/
theorem Partitioned.replace (divided : r.Partitioned) {old new : ε} {p : π}
    (replaced : r.replace old new p = .ok r') :
    r'.Partitioned ∧ r'.states.Perm (new :: r.states.erase old) ∧
      r'.waiting = r.waiting.filter (· != old) ++ [new] := by
  obtain ⟨-, -, -, waitlist⟩ := of_replace replaced
  unfold ReachedSet.replace at replaced
  split at replaced
  · cases replaced
    have removed := divided.remove old
    have fewer : ({ r.remove old with
        waitlist := (r.remove old).waitlist.filter fun entry => entry.1 != old } :
        ReachedSet ε π).Partitioned := ⟨removed.keys, removed.inside⟩
    refine ⟨fewer.add new p, ?_, ?_⟩
    · exact (states_add _ new p).trans ((divided.states_remove old).cons new)
    · unfold waiting
      rw [waitlist, List.map_append, List.filter_map]
      rfl
  · cases replaced

end ReachedSet

end ProgramAnalysis
