import ProgramAnalysis.Table.NameMap

/-! Look-ups in maps from names: what is found is an entry, every entry is found, and a name that was
erased is not found. -/
namespace ProgramAnalysis

namespace NameMap

variable {α : Type} {m : NameMap α} {x y : String} {v : α}

theorem lookup_filter {p : String → Bool} {es : List (String × α)} :
    (es.filter fun e => p e.1).lookup x = if p x then es.lookup x else none := by
  induction es with
  | nil => simp
  | cons e es ih =>
    obtain ⟨y, w⟩ := e
    rw [lookup_cons]
    by_cases kept : p y
    · rw [List.filter_cons, if_pos kept, lookup_cons, ih]
      by_cases same : x = y
      · simp [same, kept]
      · simp [same]
    · rw [List.filter_cons, if_neg kept, ih]
      by_cases same : x = y
      · simp [same, kept]
      · simp [same]

theorem get?_erase (m : NameMap α) (x y : String) :
    (m.erase x).get? y = if y = x then none else m.get? y := by
  have found := @lookup_filter _ y (fun z => decide (z ≠ x)) m.entries
  by_cases same : y = x
  · simpa [get?, erase, filter, same] using found
  · simpa [get?, erase, filter, same] using found

@[simp] theorem get?_empty (x : String) : (∅ : NameMap α).get? x = none := rfl

theorem mem_of_lookup {κ β : Type} [BEq κ] [LawfulBEq κ] {es : List (κ × β)} {k : κ} {b : β}
    (found : es.lookup k = some b) : (k, b) ∈ es := by
  induction es with
  | nil => cases found
  | cons e es ih =>
    obtain ⟨k', b'⟩ := e
    rw [List.lookup_cons] at found
    split at found
    · rename_i same
      cases found
      exact eq_of_beq same ▸ List.mem_cons_self
    · exact List.mem_cons_of_mem _ (ih found)

theorem mem_of_get? (found : m.get? x = some v) : (x, v) ∈ m.entries := mem_of_lookup found

theorem lookup_of_mem {es : List (String × α)} (increasing : es.Pairwise fun a b => a.1 < b.1)
    (mem : (x, v) ∈ es) : es.lookup x = some v := by
  induction es with
  | nil => cases mem
  | cons e es ih =>
    obtain ⟨y, w⟩ := e
    have ⟨first, rest⟩ := List.pairwise_cons.mp increasing
    rw [lookup_cons]
    rcases List.mem_cons.mp mem with same | mem
    · cases same
      exact if_pos rfl
    · have later : y < x := first _ mem
      have differs : x ≠ y := fun same => String.lt_irrefl _ (same ▸ later)
      rw [if_neg differs]
      exact ih rest mem

theorem get?_of_mem (mem : (x, v) ∈ m.entries) : m.get? x = some v :=
  lookup_of_mem m.increasing mem

theorem entries_nodup (m : NameMap α) : m.entries.Nodup := by
  refine m.increasing.imp fun before same => ?_
  rw [same] at before
  exact String.lt_irrefl _ before

/-- Maps with the same look-ups have the same entries, and there is one order for them. -/
theorem ext_get? {n : NameMap α} (same : ∀ x, m.get? x = n.get? x) : m = n := by
  have members : ∀ e, e ∈ m.entries ↔ e ∈ n.entries := by
    rintro ⟨x, v⟩
    constructor
    · intro mem
      exact mem_of_get? ((same x).symm.trans (get?_of_mem mem))
    · intro mem
      exact mem_of_get? ((same x).trans (get?_of_mem mem))
  have perm := (List.perm_ext_iff_of_nodup m.entries_nodup n.entries_nodup).mpr members
  have entries : m.entries = n.entries := by
    refine perm.eq_of_pairwise ?_ m.increasing n.increasing
    intro a b _ _ before after
    exact (String.lt_irrefl _ (String.lt_trans before after)).elim
  cases m
  cases n
  cases entries
  rfl

end NameMap

end ProgramAnalysis
