import Mathlib.Algebra.Order.BigOperators.Group.List
import Mathlib.Algebra.Order.Ring.Nat
import ProgramAnalysis.Proofs.Analysis.Sign

/-! Signs of variables as a lattice. States are compared and joined variable by variable, equal signs of
all variables make equal states, and a state that is strictly above another one has more atoms at some
variable. So chains of states that know nothing but some variables are not longer than twice their number. -/
namespace ProgramAnalysis

namespace Sign

variable {s t : Sign}

theorem le_iff : s.le t = true ↔ ∀ a, s.contains a = true → t.contains a = true := by
  constructor
  · intro le a
    exact contains_of_le le
  · intro each
    have implied (a : SignAtom) : (!s.contains a || t.contains a) = true := by
      cases inside : s.contains a with
      | false => rfl
      | true => exact each a inside
    rw [le, Bool.and_eq_true, Bool.and_eq_true]
    exact ⟨⟨implied .negative, implied .zero⟩, implied .positive⟩

theorem ext_contains (same : ∀ a, s.contains a = t.contains a) : s = t := by
  have negative := same .negative
  have zero := same .zero
  have positive := same .positive
  cases s
  cases t
  simp_all [contains]

theorem le_top (s : Sign) : s.le top = true := le_iff.mpr fun a _ => contains_top a

theorem le_join_left (s t : Sign) : s.le (s.join t) = true :=
  le_iff.mpr fun a inside => by simp [inside]

theorem le_join_right (s t : Sign) : t.le (s.join t) = true :=
  le_iff.mpr fun a inside => by simp [inside]

theorem join_bottom (s : Sign) : s.join bottom = s := ext_contains fun a => by simp

theorem bottom_join (s : Sign) : bottom.join s = s := ext_contains fun a => by simp

theorem top_join (s : Sign) : top.join s = top := ext_contains fun a => by simp

theorem eq_bottom_of_le (le : s.le bottom = true) : s = bottom :=
  ext_contains fun a => by
    have none := fun inside => contains_of_le (a := a) le inside
    simpa using none

theorem join_ne_bottom (some : s ≠ bottom) : s.join t ≠ bottom := by
  intro none
  have le := le_join_left s t
  rw [none] at le
  exact some (eq_bottom_of_le le)

theorem length_atoms_le (s : Sign) : s.atoms.length ≤ 3 := List.length_filter_le _ _

theorem length_atoms_mono (le : s.le t = true) : s.atoms.length ≤ t.atoms.length := by
  rw [atoms, atoms, ← List.countP_eq_length_filter, ← List.countP_eq_length_filter]
  exact List.countP_mono_left fun a _ => le_iff.mp le a

theorem length_atoms_pos (some : s ≠ bottom) : 0 < s.atoms.length := by
  rw [List.length_pos_iff]
  intro none
  refine some (ext_contains fun a => ?_)
  rw [contains_bottom, ← Bool.not_eq_true, ← mem_atoms, none]
  exact List.not_mem_nil

theorem length_atoms_lt (le : s.le t = true) (ne : s ≠ t) : s.atoms.length < t.atoms.length := by
  revert le ne
  obtain ⟨n, z, p⟩ := s
  obtain ⟨n', z', p'⟩ := t
  revert n z p n' z' p'
  decide

end Sign

namespace SignState

variable {st st' : SignState} {x y : String} {s : Sign} {vars : List String}

/-! ### Look-ups -/

theorem known_ne_bottom (m : SignMap) : known m ≠ .bottom := by
  intro same
  cases same

theorem get_known_ne_bottom (m : SignMap) (x : String) : (known m).get x ≠ .bottom := by
  rw [get, SignMap.get]
  cases found : m.signs.get? x with
  | none => decide
  | some s => exact (m.proper _ (NameMap.mem_of_get? found)).1

theorem get_ne_bottom (known : st ≠ .bottom) (x : String) : st.get x ≠ .bottom := by
  cases st with
  | bottom => exact (known rfl).elim
  | known m => exact get_known_ne_bottom m x

theorem set_ne_bottom (known : st ≠ .bottom) (some : s ≠ .bottom) : st.set x s ≠ .bottom := by
  cases st with
  | bottom => exact (known rfl).elim
  | known m =>
    rw [set, dif_neg some]
    split <;> exact known_ne_bottom _

theorem get_set (known : st ≠ .bottom) (some : s ≠ .bottom) :
    (st.set x s).get y = if y = x then s else st.get y := by
  cases st with
  | bottom => exact (known rfl).elim
  | known m =>
    rw [set, dif_neg some]
    split
    · rename_i any
      simp only [get, SignMap.get, SignMap.erase, NameMap.get?_erase]
      split
      · exact any.symm
      · rfl
    · simp only [get, SignMap.get, SignMap.insert, NameMap.get?_insert]
      split <;> rfl

/-- The sign of all numbers is not stored, so what is stored can be read off. -/
theorem get?_signs (m : SignMap) (x : String) :
    m.signs.get? x = if m.get x = .top then none else some (m.get x) := by
  rw [SignMap.get]
  cases found : m.signs.get? x with
  | none => rfl
  | some s => exact (if_neg (m.proper _ (NameMap.mem_of_get? found)).2).symm

theorem ext_get (same : ∀ x, st.get x = st'.get x) : st = st' := by
  cases st with
  | bottom =>
    cases st' with
    | bottom => rfl
    | known n => exact (get_known_ne_bottom n "" (same "").symm).elim
  | known m =>
    cases st' with
    | bottom => exact (get_known_ne_bottom m "" (same "")).elim
    | known n =>
      have signs : m.signs = n.signs := by
        refine NameMap.ext_get? fun x => ?_
        have here : m.get x = n.get x := same x
        rw [get?_signs, get?_signs, here]
      cases m
      cases n
      cases signs
      rfl

theorem le_iff : st.le st' = true ↔ ∀ x, (st.get x).le (st'.get x) = true := by
  cases st with
  | bottom => exact ⟨fun _ x => Sign.le_iff.mpr fun a inside => by simp [get] at inside, fun _ => rfl⟩
  | known m =>
    cases st' with
    | bottom =>
      refine ⟨fun below => Bool.noConfusion below, fun all => ?_⟩
      exact (get_known_ne_bottom m "" (Sign.eq_bottom_of_le (all ""))).elim
    | known n =>
      rw [le, List.all_eq_true]
      constructor
      · intro all x
        cases found : n.signs.get? x with
        | none => simpa [get, SignMap.get, found] using Sign.le_top _
        | some s => simpa [get, SignMap.get, found] using all _ (NameMap.mem_of_get? found)
      · rintro all ⟨x, s⟩ mem
        have here := all x
        simpa [get, SignMap.get, NameMap.get?_of_mem mem] using here

/-! ### Joins -/

theorem get_foldl_set {es : List (String × Sign)} {sign : String → Sign → Sign}
    (increasing : es.Pairwise fun a b => a.1 < b.1) (start : st ≠ .bottom)
    (possible : ∀ e ∈ es, sign e.1 e.2 ≠ .bottom) :
    (es.foldl (fun acc (x, s) => acc.set x (sign x s)) st).get y =
      ((es.lookup y).map (sign y)).getD (st.get y) := by
  induction es generalizing st with
  | nil => rfl
  | cons e es ih =>
    obtain ⟨x, s⟩ := e
    obtain ⟨first, increasing⟩ := List.pairwise_cons.mp increasing
    obtain ⟨here, possible⟩ := List.forall_mem_cons.mp possible
    rw [List.foldl_cons, ih increasing (set_ne_bottom start here) possible, get_set start here,
      NameMap.lookup_cons]
    by_cases same : y = x
    · subst same
      have later : es.lookup y = none := by
        rw [List.lookup_eq_none_iff]
        intro e mem
        have differs : y ≠ e.1 := fun same => String.lt_irrefl _ (same ▸ first e mem)
        simpa using differs
      simp [later]
    · simp [same]

theorem get_join (st st' : SignState) (x : String) :
    (st.join st').get x = (st.get x).join (st'.get x) := by
  cases st with
  | bottom => exact (Sign.bottom_join _).symm
  | known m =>
    cases st' with
    | bottom => exact (Sign.join_bottom _).symm
    | known n =>
      have possible : ∀ e ∈ m.signs.entries, e.2.join (n.get e.1) ≠ .bottom := fun e mem =>
        Sign.join_ne_bottom (m.proper e mem).1
      have folded := @get_foldl_set top x _ (fun y s => s.join (n.get y)) m.signs.increasing
        (known_ne_bottom .empty) possible
      refine folded.trans ?_
      show ((m.signs.get? x).map _).getD Sign.top = ((m.signs.get? x).getD .top).join (n.get x)
      cases m.signs.get? x with
      | none => exact (Sign.top_join _).symm
      | some s => rfl

theorem le_join_left (st st' : SignState) : st.le (st.join st') = true :=
  le_iff.mpr fun x => by
    rw [get_join]
    exact Sign.le_join_left _ _

theorem le_join_right (st st' : SignState) : st'.le (st.join st') = true :=
  le_iff.mpr fun x => by
    rw [get_join]
    exact Sign.le_join_right _ _

theorem join_ne_bottom (some : st' ≠ .bottom) : st.join st' ≠ .bottom := by
  intro none
  have le := le_join_right st st'
  rw [none] at le
  cases st' with
  | bottom => exact some rfl
  | known n => cases le

/-! ### Ranks -/

/-- Nothing is known of any other variable. -/
def Within (vars : List String) (st : SignState) : Prop :=
  st ≠ .bottom → ∀ x, x ∉ vars → st.get x = .top

/-- How many atoms more than one the variables have together. -/
def rank (vars : List String) (st : SignState) : Nat :=
  (vars.map fun x => (st.get x).atoms.length - 1).sum

theorem rank_le (vars : List String) (st : SignState) : rank vars st ≤ 2 * vars.length := by
  have each : ∀ n ∈ vars.map fun x => (st.get x).atoms.length - 1, n ≤ 2 := by
    intro n mem
    obtain ⟨x, -, rfl⟩ := List.mem_map.mp mem
    have few := Sign.length_atoms_le (st.get x)
    omega
  have total := List.sum_le_card_nsmul _ _ each
  rw [List.length_map, nsmul_eq_mul, Nat.cast_id] at total
  exact total.trans_eq (Nat.mul_comm _ _)

theorem rank_lt (start : st ≠ .bottom) (within : st.Within vars) (le : st.le st' = true)
    (ne : st ≠ st') : rank vars st < rank vars st' := by
  rw [le_iff] at le
  have differs : ∃ x, st.get x ≠ st'.get x := by
    by_contra! same
    exact ne (ext_get same)
  obtain ⟨x, differs⟩ := differs
  -- Any other variable has all signs in the smaller state already.
  have mem : x ∈ vars := by
    by_contra other
    have any := within start x other
    refine differs (any.trans (Sign.ext_contains fun a => ?_))
    have inside := Sign.contains_of_le (le x) (a := a)
    rw [any] at inside
    rw [inside (Sign.contains_top a), Sign.contains_top]
  refine List.sum_lt_sum _ _ (fun y _ => ?_) ⟨x, mem, ?_⟩
  · exact Nat.sub_le_sub_right (Sign.length_atoms_mono (le y)) 1
  · have some := Sign.length_atoms_pos (get_ne_bottom start x)
    have more := Sign.length_atoms_lt (le x) differs
    omega

end SignState

end ProgramAnalysis
