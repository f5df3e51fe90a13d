import Mathlib.Data.List.Induction
import ProgramAnalysis.Formula.Atoms

/-! The atoms of a formula in order. A place in a formula is the list of the arguments on the way to it,
and the places from left to right are those lists in lexicographic order. The search with a stack
meets the atoms in this order, so it gives each atom where it occurs first. -/
namespace ProgramAnalysis

namespace Formula

variable {f : Formula} {fs gs hs : List Formula}

/-! ### Places -/

def at? (f : Formula) : List Nat → Option Formula
  | [] => some f
  | i :: p => f.arguments[i]?.bind (·.at? p)

def below? (fs : List Formula) : List Nat → Option Formula
  | [] => none
  | i :: p => fs[i]?.bind (·.at? p)

/-- The places of all atoms, from left to right. -/
structure AtomPlaces (view : List Nat → Option Formula) (places : List (List Nat)) : Prop where
  sorted : places.Pairwise (List.Lex (· < ·))
  mem_iff : ∀ p, p ∈ places ↔ ∃ g, view p = some g ∧ g.isAtom = true

/-- The list has the atoms that are seen at places, each as often as it is seen, from left to right. -/
def ListsAtoms (view : List Nat → Option Formula) (gs : List Formula) : Prop :=
  ∃ places, AtomPlaces view places ∧ places.map view = gs.map some

theorem listsAtoms_of_isAtom (isAtom : f.isAtom = true) : ListsAtoms f.at? [f] := by
  refine ⟨[[]], ⟨List.pairwise_singleton _ _, fun p => ?_⟩, rfl⟩
  cases p with
  | nil => simpa [at?] using isAtom
  | cons i p =>
    cases f with
    | atom r a b => simp [at?, arguments]
    | _ => cases isAtom

theorem AtomPlaces.ne_nil {places : List (List Nat)} (atoms : AtomPlaces (below? fs) places) :
    [] ∉ places := by
  intro mem
  obtain ⟨g, found, -⟩ := (atoms.mem_iff []).mp mem
  cases found

theorem listsAtoms_of_arguments (notAtom : f.isAtom = false)
    (lists : ListsAtoms (below? f.arguments) gs) : ListsAtoms f.at? gs := by
  obtain ⟨places, atoms, same⟩ := lists
  refine ⟨places, ⟨atoms.sorted, fun p => ?_⟩, ?_⟩
  · cases p with
    | nil => exact iff_of_false atoms.ne_nil (by simp [at?, notAtom])
    | cons i p => exact atoms.mem_iff (i :: p)
  · rw [← same]
    refine List.map_congr_left fun p mem => ?_
    cases p with
    | nil => exact absurd mem atoms.ne_nil
    | cons i p => rfl

theorem listsAtoms_nil : ListsAtoms (below? []) [] := by
  refine ⟨[], ⟨.nil, fun p => iff_of_false List.not_mem_nil ?_⟩, rfl⟩
  cases p <;> simp [below?]

/-- The place when one more argument stands to the left. -/
def further : List Nat → List Nat
  | [] => []
  | i :: p => (i + 1) :: p

theorem further_ne (p q : List Nat) : further q ≠ 0 :: p := by
  cases q <;> simp [further]

theorem further_eq_iff {i : Nat} {p q : List Nat} : further q = (i + 1) :: p ↔ q = i :: p := by
  cases q <;> simp [further]

theorem below?_further (p : List Nat) : below? (f :: fs) (further p) = below? fs p := by
  cases p <;> rfl

theorem further_lex {p q : List Nat} (less : List.Lex (· < ·) p q) (proper : p ≠ []) :
    List.Lex (· < ·) (further p) (further q) := by
  cases less with
  | nil => contradiction
  | rel less => exact .rel (Nat.succ_lt_succ less)
  | cons less => exact .cons less

theorem AtomPlaces.cons {ps qs : List (List Nat)} (first : AtomPlaces f.at? ps)
    (rest : AtomPlaces (below? fs) qs) :
    AtomPlaces (below? (f :: fs)) (ps.map (0 :: ·) ++ qs.map further) := by
  have proper (q : List Nat) (mem : q ∈ qs) : q ≠ [] := fun root => rest.ne_nil (root ▸ mem)
  constructor
  · refine List.pairwise_append.mpr ⟨?_, ?_, ?_⟩
    · exact List.pairwise_map.mpr (first.sorted.imp .cons)
    · refine List.pairwise_map.mpr (rest.sorted.imp_of_mem ?_)
      exact fun mem _ less => further_lex less (proper _ mem)
    · simp only [List.forall_mem_map]
      intro p _ q mem
      obtain ⟨i, q, rfl⟩ := List.exists_cons_of_ne_nil (proper q mem)
      exact .rel i.succ_pos
  · intro p
    rw [List.mem_append, List.mem_map, List.mem_map]
    -- A place is the root, which lists no atom, or below the first formula, or below another.
    match p with
    | [] =>
      refine iff_of_false ?_ (by simp [below?])
      rintro (⟨p, -, same⟩ | ⟨q, mem, same⟩)
      · cases same
      · obtain ⟨i, q, rfl⟩ := List.exists_cons_of_ne_nil (proper q mem)
        cases same
    | 0 :: p =>
      have left : (∃ q ∈ ps, 0 :: q = 0 :: p) ↔ p ∈ ps := by simp
      have right : ¬ ∃ q ∈ qs, further q = 0 :: p := fun ⟨q, _, same⟩ => further_ne p q same
      rw [left, or_iff_left right]
      exact first.mem_iff p
    | (i + 1) :: p =>
      have left : ¬ ∃ q ∈ ps, 0 :: q = (i + 1) :: p := by simp
      have right : (∃ q ∈ qs, further q = (i + 1) :: p) ↔ i :: p ∈ qs := by simp [further_eq_iff]
      rw [or_iff_right left, right]
      exact rest.mem_iff (i :: p)

theorem listsAtoms_cons (first : ListsAtoms f.at? gs) (rest : ListsAtoms (below? fs) hs) :
    ListsAtoms (below? (f :: fs)) (gs ++ hs) := by
  obtain ⟨ps, atomsP, sameP⟩ := first
  obtain ⟨qs, atomsQ, sameQ⟩ := rest
  refine ⟨_, atomsP.cons atomsQ, ?_⟩
  rw [List.map_append, List.map_map, List.map_map, List.map_append, ← sameP, ← sameQ]
  congr 1
  exact List.map_congr_left fun q _ => below?_further q

theorem atomOccurrences_of_isAtom (isAtom : f.isAtom = true) : f.atomOccurrences = [f] := by
  cases f with
  | atom r a b => rfl
  | _ => cases isAtom

theorem atomOccurrences_of_arguments (notAtom : f.isAtom = false) :
    f.atomOccurrences = atomOccurrencesAll f.arguments := by
  cases f with
  | atom r a b => cases notAtom
  | _ => simp [atomOccurrences, atomOccurrencesAll, arguments]

theorem listsAtoms_atomOccurrencesAll (each : ∀ g ∈ fs, ListsAtoms g.at? g.atomOccurrences) :
    ListsAtoms (below? fs) (atomOccurrencesAll fs) := by
  induction fs with
  | nil => exact listsAtoms_nil
  | cons f fs ih =>
    obtain ⟨first, rest⟩ := List.forall_mem_cons.mp each
    exact listsAtoms_cons first (ih rest)

theorem listsAtoms_atomOccurrences (f : Formula) : ListsAtoms f.at? f.atomOccurrences := by
  induction f using arguments_induction with
  | step f ih =>
    cases kind : f.isAtom with
    | true =>
      rw [atomOccurrences_of_isAtom kind]
      exact listsAtoms_of_isAtom kind
    | false =>
      rw [atomOccurrences_of_arguments kind]
      exact listsAtoms_of_arguments kind (listsAtoms_atomOccurrencesAll ih)

/-! ### The search -/

theorem atomOccurrencesAll_append (fs gs : List Formula) :
    atomOccurrencesAll (fs ++ gs) = atomOccurrencesAll fs ++ atomOccurrencesAll gs := by
  induction fs with
  | nil => rfl
  | cons f fs ih =>
    rw [List.cons_append, atomOccurrencesAll, atomOccurrencesAll, ih, List.append_assoc]

/-- What a search still adds are the atoms that occur on its stack, from the top on. -/
theorem atomsFrom_eq (symbolic : Bool) (found pending : List Formula) :
    atomsFrom symbolic found pending =
      ((atomOccurrencesAll pending).map (collected symbolic)).foldl addNew found := by
  fun_induction atomsFrom symbolic found pending with
  | case1 => rfl
  | case2 found v pending ih => exact ih
  | case3 found x pending ih => exact ih
  | case4 found r a b pending ih => exact ih
  | case5 found f pending ih => exact ih
  | case6 found c fs pending ih =>
    rw [ih, pushAll_eq, atomOccurrencesAll_append]
    rfl
  | case7 found a b pending ih =>
    rw [ih]
    simp only [atomOccurrencesAll, atomOccurrences, List.append_assoc]

theorem foldl_addNew (fs : List Formula) : fs.foldl addNew [] = fs.eraseDups := by
  induction fs using List.reverseRecOn with
  | nil => rfl
  | append_singleton fs f ih =>
    rw [List.foldl_append, ih, List.eraseDups_append, List.foldl_cons, List.foldl_nil, addNew]
    by_cases known : f ∈ fs <;> simp [List.removeAll, List.eraseDups_cons, known]

/-- The atoms of a formula are its occurrences of atoms from left to right, of equal ones the first.
The symbolic atoms are the same after every occurrence has lost its indices. -/
theorem atoms_in_order (f : Formula) : ∃ occurrences, ListsAtoms f.at? occurrences ∧
    f.atoms = occurrences.eraseDups ∧
    f.symbolicAtoms = (occurrences.map uninstantiate).eraseDups := by
  have all : atomOccurrencesAll [f] = f.atomOccurrences := List.append_nil _
  refine ⟨f.atomOccurrences, listsAtoms_atomOccurrences f, ?_, ?_⟩
  · have kept : f.atomOccurrences.map (collected false) = f.atomOccurrences := List.map_id _
    rw [atoms, atomsFrom_eq, foldl_addNew, all, kept]
  · have stripped : collected true = uninstantiate := rfl
    rw [symbolicAtoms, atomsFrom_eq, foldl_addNew, all, stripped]

end Formula

end ProgramAnalysis
