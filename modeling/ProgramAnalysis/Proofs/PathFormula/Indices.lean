import ProgramAnalysis.Proofs.Formula.Vocabulary
import ProgramAnalysis.Proofs.Program.Execution
import ProgramAnalysis.Proofs.Table.NameMap

/-! Indices of variables. A formula that was made at a map of indices speaks of no later index, so its
meaning stays when later indices get their values. -/
namespace ProgramAnalysis

namespace SsaMap

variable {a b s t u : SsaMap} {x y : String} {i : Nat}

def Positive (s : SsaMap) : Prop := ∀ x, 1 ≤ s.index x

def Le (s t : SsaMap) : Prop := ∀ x, s.index x ≤ t.index x

theorem Le.refl (s : SsaMap) : s.Le s := fun _ => Nat.le_refl _

theorem Le.trans (first : s.Le t) (second : t.Le u) : s.Le u :=
  fun x => Nat.le_trans (first x) (second x)

theorem positive_empty : empty.Positive := fun _ => Nat.le_refl 1

theorem index_of_set (found : s.set x i = .ok t) :
    t.index y = if y = x then i else s.index y := by
  have inserted : t = ⟨s.indices.insert x i⟩ := by
    unfold set at found
    split at found
    · split at found
      · cases found
        rfl
      · cases found
    · cases found
      rfl
  subst inserted
  simp only [index, index?, NameMap.get?_insert]
  split <;> rfl

theorem of_nextIndex (found : s.nextIndex x = .ok i) : i = s.index x + 1 := by
  unfold nextIndex at found
  split at found
  · cases found
    rfl
  · cases found

theorem get?_foldl_max (es : List (String × Nat)) (m : NameMap Nat)
    (increasing : es.Pairwise fun a b => a.1 < b.1) :
    (es.foldl (fun m (y, i) => m.insert y ((m.get? y).elim i (Nat.max · i))) m).get? x =
      match es.lookup x with
      | some i => some ((m.get? x).elim i (Nat.max · i))
      | none => m.get? x := by
  induction es generalizing m with
  | nil => rfl
  | cons e es ih =>
    obtain ⟨y, i⟩ := e
    obtain ⟨first, rest⟩ := List.pairwise_cons.mp increasing
    rw [List.foldl_cons, ih _ rest, NameMap.lookup_cons, NameMap.get?_insert]
    by_cases same : x = y
    · subst same
      have absent : es.lookup x = none := by
        cases found : es.lookup x with
        | none => rfl
        | some j => exact (String.lt_irrefl x (first _ (NameMap.mem_of_lookup found))).elim
      simp [absent]
    · simp [same]

theorem index_max (positiveA : a.Positive) (positiveB : b.Positive) :
    (a.max b).index x = Nat.max (a.index x) (b.index x) := by
  have left := positiveA x
  have right := positiveB x
  have found := get?_foldl_max (x := x) b.indices.entries a.indices b.indices.increasing
  simp only [index, index?, max, found] at left right ⊢
  have same : b.indices.entries.lookup x = b.indices.get? x := rfl
  rw [same]
  cases inB : b.indices.get? x with
  | none => exact (Nat.max_eq_left left).symm
  | some j =>
    cases inA : a.indices.get? x with
    | none =>
      rw [inB] at right
      exact (Nat.max_eq_right right).symm
    | some i => rfl

theorem Positive.max (positiveA : a.Positive) (positiveB : b.Positive) : (a.max b).Positive := by
  intro x
  rw [index_max positiveA positiveB]
  exact Nat.le_trans (positiveA x) (Nat.le_max_left _ _)

theorem le_max_left (positiveA : a.Positive) (positiveB : b.Positive) : a.Le (a.max b) := by
  intro x
  rw [index_max positiveA positiveB]
  exact Nat.le_max_left _ _

theorem le_max_right (positiveA : a.Positive) (positiveB : b.Positive) : b.Le (a.max b) := by
  intro x
  rw [index_max positiveA positiveB]
  exact Nat.le_max_right _ _

/-- A difference has the indices that its variable has on either side. -/
theorem indices_of_mem_differences {d : Difference} (mem : d ∈ a.differences b) :
    (d.left.getD defaultIndex, d.right.getD defaultIndex) = (a.index d.name, b.index d.name) := by
  rcases List.mem_append.mp mem with mem | mem
  · obtain ⟨⟨x, i⟩, inside, found⟩ := List.mem_filterMap.mp mem
    simp only at found
    split at found
    · cases found
    · cases found
      have known : b.index? x = some i := NameMap.get?_of_mem inside
      simp [index, known]
  · obtain ⟨⟨x, i⟩, inside, found⟩ := List.mem_filterMap.mp mem
    simp only at found
    split at found
    · cases found
    · rename_i absent
      cases found
      have known : a.index? x = some i := NameMap.get?_of_mem inside
      have unknown : b.index? x = none := by
        simpa [NameMap.contains, index?] using absent
      simp [index, known, unknown]

/-- What a formula may speak of that was made at these indices. -/
def upTo (s : SsaMap) : Vocabulary where
  number := Vocabulary.words.number
  var x := ∃ i, x.index = some i ∧ i ≤ s.index x.name
  prop _ := False

/-- What is not bound to a later index: also variables that have none. -/
def below (s : SsaMap) : Vocabulary where
  number := Vocabulary.words.number
  var x := ∀ i, x.index = some i → i ≤ s.index x.name
  prop _ := True

end SsaMap

def Vocabulary.upTo (L : Vocabulary) (s : SsaMap) : Vocabulary := { L with var := s.upTo.var }

namespace SsaMap

variable {L : Vocabulary} {s t : SsaMap}

theorem Le.widens (le : s.Le t) : (L.upTo t).Includes (L.upTo s) := by
  refine ⟨fun _ h => h, ?_, fun _ h => h⟩
  rintro x ⟨i, at_, before⟩
  exact ⟨i, at_, Nat.le_trans before (le x.name)⟩

theorem Le.includes (le : s.Le t) : t.upTo.Includes s.upTo := le.widens (L := .arithmetic)

theorem words_includes_upTo (s : SsaMap) : Vocabulary.words.Includes s.upTo :=
  ⟨fun _ h => h, fun _ _ => trivial, fun _ _ => trivial⟩

theorem words_includes_below (s : SsaMap) : Vocabulary.words.Includes s.below :=
  ⟨fun _ h => h, fun _ _ => trivial, fun _ _ => trivial⟩

theorem below_includes_upTo (s : SsaMap) : s.below.Includes s.upTo := by
  refine ⟨fun _ h => h, ?_, fun _ _ => trivial⟩
  rintro x ⟨i, known, before⟩ j again
  obtain rfl : i = j := Option.some.inj (known.symm.trans again)
  exact before

theorem Le.below (le : s.Le t) : t.below.Includes s.below :=
  ⟨fun _ h => h, fun x before i known => Nat.le_trans (before i known) (le x.name), fun _ h => h⟩

end SsaMap

theorem Formula.Within.instantiate {L : Vocabulary} {f : Formula} (within : f.Within L.bare)
    (s : SsaMap) : (f.instantiate s).Within (L.upTo s) := by
  refine (within_mapVars f).mpr (within.mono ⟨fun _ h => h, ?_, fun _ h => h⟩)
  rintro ⟨x, _⟩ rfl
  exact ⟨_, rfl, Nat.le_refl _⟩

/-! ### Values at indices -/

namespace Assignment

/-- The values at these indices. -/
def store (m : Assignment) (s : SsaMap) : Store := fun x => m.number ⟨x, some (s.index x)⟩

variable {m m' : Assignment} {s t : SsaMap} {store : Store} {x : String} {v : Int} {i : Nat}

/-- The variables of the store have their values at these indices. -/
def At (m : Assignment) (s : SsaMap) (store : Store) : Prop :=
  ∀ x, m.number ⟨x, some (s.index x)⟩ = store x

/-- The assignments give the same values to what was made at these indices. -/
def Agrees (s : SsaMap) (m m' : Assignment) : Prop :=
  ∀ x, s.upTo.var x → m.number x = m'.number x

theorem Agrees.refl (s : SsaMap) (m : Assignment) : Agrees s m m := fun _ _ => rfl

theorem Agrees.trans {m'' : Assignment} (le : s.Le t) (first : Agrees s m m')
    (second : Agrees t m' m'') : Agrees s m m'' :=
  fun x inside => (first x inside).trans (second x (le.includes.var x inside))

theorem Agrees.holds {ops : Operators} {f : Formula} (agrees : Agrees s m m')
    (within : f.Within s.upTo) : f.holds ops m = f.holds ops m' :=
  Formula.holds_congr f within agrees fun _ none => none.elim

theorem at_store (m : Assignment) (s : SsaMap) : m.At s (m.store s) := fun _ => rfl

theorem At.eq_store (reads : m.At s store) : store = m.store s := funext fun x => (reads x).symm

/-- The second assignment may differ from the first at later indices only. -/
structure Prolongs (s : SsaMap) (m m' : Assignment) : Prop where
  agrees : Agrees s m m'
  truth : m'.truth = m.truth

theorem Prolongs.refl (s : SsaMap) (m : Assignment) : Prolongs s m m := ⟨.refl s m, rfl⟩

theorem Prolongs.trans {m'' : Assignment} (le : s.Le t) (first : Prolongs s m m')
    (second : Prolongs t m' m'') : Prolongs s m m'' :=
  ⟨first.agrees.trans le second.agrees, second.truth.trans first.truth⟩

theorem Prolongs.holds {L : Vocabulary} {ops : Operators} {f : Formula} (prolongs : Prolongs s m m')
    (within : f.Within (L.upTo s)) : f.holds ops m = f.holds ops m' :=
  Formula.holds_congr f within prolongs.agrees fun x _ => congrFun prolongs.truth.symm x

def set (m : Assignment) (x : String) (i : Nat) (v : Int) : Assignment :=
  { m with number := fun y => if y = ⟨x, some i⟩ then v else m.number y }

theorem agrees_set (later : s.index x < i) : Agrees s m (m.set x i v) := by
  rintro ⟨y, _⟩ ⟨j, rfl, before⟩
  refine (if_neg fun same => ?_).symm
  cases same
  exact Nat.not_le_of_lt later before

theorem At.set (reads : m.At s store) (next : s.set x i = .ok t) :
    (m.set x i v).At t (store.set x v) := by
  intro y
  rw [SsaMap.index_of_set next]
  by_cases same : y = x
  · subst same
    simp [Assignment.set]
  · simpa [Assignment.set, same] using reads y

/-- Every variable keeps its value from its index on. -/
def hold (m : Assignment) (s : SsaMap) : Assignment :=
  { m with number := fun x =>
    { x with index := x.index.map fun i => min i (s.index x.name) : TermVar } |> m.number }

theorem agrees_hold (m : Assignment) (s : SsaMap) : Agrees s m (m.hold s) := by
  rintro ⟨x, _⟩ ⟨i, rfl, before⟩
  have same : min i (s.index x) = i := Nat.min_eq_left before
  simp [hold, same]

/-- Formulas that are bound to no later index do not see what is held. -/
theorem holds_hold {ops : Operators} {f : Formula} (within : f.Within s.below) :
    f.holds ops (m.hold s) = f.holds ops m := by
  refine Formula.holds_congr f within ?_ fun _ _ => rfl
  rintro ⟨x, index⟩ before
  cases index with
  | none => rfl
  | some i =>
    have same : min i (s.index x) = i := Nat.min_eq_left (before i rfl)
    simp [hold, same]

theorem hold_later (reads : m.At s store) (later : s.index x ≤ i) :
    (m.hold s).number ⟨x, some i⟩ = store x := by
  have same : min i (s.index x) = s.index x := Nat.min_eq_right later
  simpa [hold, same] using reads x

theorem At.hold (reads : m.At s store) (le : s.Le t) : (m.hold s).At t store :=
  fun x => hold_later reads (le x)

end Assignment

end ProgramAnalysis
