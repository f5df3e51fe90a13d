import ProgramAnalysis.Formula.Atoms
import ProgramAnalysis.Formula.Meaning
import ProgramAnalysis.Numeric.Machine

/-! What occurs in a formula: its numbers, variables and propositional variables. The builders bring
nothing new in, and the meaning of a formula depends on nothing else. -/
namespace ProgramAnalysis

/-- The numbers, variables and propositional variables that are allowed. -/
structure Vocabulary where
  number : Int → Prop
  var : TermVar → Prop
  prop : String → Prop

namespace Vocabulary

structure Includes (L L' : Vocabulary) : Prop where
  number : ∀ c, L'.number c → L.number c
  var : ∀ x, L'.var x → L.var x
  prop : ∀ x, L'.prop x → L.prop x

/-- The variables that a change of variables sends into the vocabulary. -/
def before (g : TermVar → TermVar) (L : Vocabulary) : Vocabulary :=
  { L with var := fun x => L.var (g x) }

def bare (L : Vocabulary) : Vocabulary := { L with var := fun x => x.index = none }

def indexed (L : Vocabulary) : Vocabulary := { L with var := fun x => x.index ≠ none }

/-- Any name and index, and numbers that a machine word holds. -/
def words : Vocabulary :=
  ⟨fun c => Machine.fits Machine.bound64 c = true, fun _ => True, fun _ => True⟩

def any : Vocabulary := ⟨fun _ => True, fun _ => True, fun _ => True⟩

/-- Any numbers and variables, but no propositional variables. -/
def numeric : Vocabulary := ⟨fun _ => True, fun _ => True, fun _ => False⟩

/-- Machine numbers and any variables, but no propositional variables. -/
def arithmetic : Vocabulary := ⟨words.number, fun _ => True, fun _ => False⟩

end Vocabulary

variable {L L' : Vocabulary} {ops : Operators} {m m' : Assignment}

namespace Term

def Within (L : Vocabulary) : Term → Prop
  | .const c => L.number c
  | .var x => L.var x
  | .neg t => t.Within L
  | .bitNot t => t.Within L
  | .binary _ a b => a.Within L ∧ b.Within L

theorem Within.mono {t : Term} (within : t.Within L') (more : L.Includes L') : t.Within L := by
  induction t with
  | const c => exact more.number c within
  | var x => exact more.var x within
  | neg t ih => exact ih within
  | bitNot t ih => exact ih within
  | binary op a b iha ihb => exact ⟨iha within.1, ihb within.2⟩

theorem within_numeric (t : Term) : t.Within .numeric := by
  induction t with
  | const => trivial
  | var => trivial
  | neg t ih => exact ih
  | bitNot t ih => exact ih
  | binary op a b iha ihb => exact ⟨iha, ihb⟩

theorem within_any (t : Term) : t.Within .any :=
  t.within_numeric.mono ⟨fun _ _ => trivial, fun _ _ => trivial, fun _ _ => trivial⟩

theorem within_mapVars {g : TermVar → TermVar} {t : Term} :
    (t.mapVars g).Within L ↔ t.Within (L.before g) := by
  induction t with
  | const c => exact Iff.rfl
  | var x => exact Iff.rfl
  | neg t ih => exact ih
  | bitNot t ih => exact ih
  | binary op a b iha ihb => exact and_congr iha ihb

theorem within_of_mem_masks {t u : Term} (within : t.Within L) (mem : u ∈ t.masks) :
    u.Within L := by
  induction t with
  | const c => cases mem
  | var x => cases mem
  | neg t ih => exact ih within mem
  | bitNot t ih => exact ih within mem
  | binary op a b iha ihb =>
    simp only [masks, List.mem_append] at mem
    rcases mem with (mem | mem) | mem
    · exact iha within.1 mem
    · exact ihb within.2 mem
    · split at mem
      · exact List.mem_singleton.mp mem ▸ within
      · cases mem

theorem eval_congr {t : Term} {values values' : TermVar → Int} (within : t.Within L)
    (same : ∀ x, L.var x → values x = values' x) :
    t.eval ops values = t.eval ops values' := by
  induction t with
  | const c => rfl
  | var x => exact same x within
  | neg t ih => rw [eval, eval, ih within]
  | bitNot t ih => rw [eval, eval, ih within]
  | binary op a b iha ihb => rw [eval, eval, iha within.1, ihb within.2]

end Term

namespace Formula

mutual

def Within (L : Vocabulary) : Formula → Prop
  | .bool _ => True
  | .prop x => L.prop x
  | .atom _ a b => a.Within L ∧ b.Within L
  | .not f => f.Within L
  | .nary _ fs => WithinAll L fs
  | .iff a b => a.Within L ∧ b.Within L

def WithinAll (L : Vocabulary) : List Formula → Prop
  | [] => True
  | f :: fs => f.Within L ∧ WithinAll L fs

end

mutual

theorem within_any (f : Formula) : f.Within .any := by
  cases f with
  | bool => trivial
  | prop => trivial
  | atom r a b => exact ⟨a.within_any, b.within_any⟩
  | not f => exact within_any f
  | nary c fs => exact withinAll_any fs
  | iff a b => exact ⟨within_any a, within_any b⟩

theorem withinAll_any (fs : List Formula) : WithinAll .any fs := by
  cases fs with
  | nil => trivial
  | cons f fs => exact ⟨within_any f, withinAll_any fs⟩

end

theorem within_numeric_of_isAtom {f : Formula} (isAtom : f.isAtom = true) :
    f.Within .numeric := by
  cases f with
  | atom r a b => exact ⟨a.within_numeric, b.within_numeric⟩
  | _ => cases isAtom

mutual

theorem Within.mono {f : Formula} (within : f.Within L') (more : L.Includes L') :
    f.Within L := by
  cases f with
  | bool => trivial
  | prop x => exact more.prop x within
  | atom r a b => exact ⟨within.1.mono more, within.2.mono more⟩
  | not f => exact Within.mono (f := f) within more
  | nary c fs =>
    have inner : WithinAll L' fs := within
    exact WithinAll.mono inner more
  | iff a b => exact ⟨Within.mono within.1 more, Within.mono within.2 more⟩

theorem WithinAll.mono {fs : List Formula} (within : WithinAll L' fs) (more : L.Includes L') :
    WithinAll L fs := by
  cases fs with
  | nil => trivial
  | cons f fs => exact ⟨Within.mono within.1 more, WithinAll.mono within.2 more⟩

end

mutual

theorem within_mapVars {g : TermVar → TermVar} (f : Formula) :
    (f.mapVars g).Within L ↔ f.Within (L.before g) := by
  cases f with
  | bool => exact Iff.rfl
  | prop x => exact Iff.rfl
  | atom r a b => exact and_congr Term.within_mapVars Term.within_mapVars
  | not f => exact within_mapVars f
  | nary c fs => exact withinAll_mapVarsAll fs
  | iff a b => exact and_congr (within_mapVars a) (within_mapVars b)

theorem withinAll_mapVarsAll {g : TermVar → TermVar} (fs : List Formula) :
    WithinAll L (mapVarsAll g fs) ↔ WithinAll (L.before g) fs := by
  cases fs with
  | nil => exact Iff.rfl
  | cons f fs => exact and_congr (within_mapVars f) (withinAll_mapVarsAll fs)

end

mutual

theorem holds_congr (f : Formula) (within : f.Within L)
    (numbers : ∀ x, L.var x → m.number x = m'.number x)
    (truths : ∀ x, L.prop x → m.truth x = m'.truth x) :
    f.holds ops m = f.holds ops m' := by
  cases f with
  | bool => rfl
  | prop x => exact truths x within
  | atom r a b =>
    rw [holds, holds, Term.eval_congr within.1 numbers, Term.eval_congr within.2 numbers]
  | not f => rw [holds, holds, holds_congr f within numbers truths]
  | nary c fs => rw [holds, holds, holdsNary_congr c fs within numbers truths]
  | iff a b =>
    rw [holds, holds, holds_congr a within.1 numbers truths,
      holds_congr b within.2 numbers truths]

theorem holdsNary_congr (c : Connective) (fs : List Formula) (within : WithinAll L fs)
    (numbers : ∀ x, L.var x → m.number x = m'.number x)
    (truths : ∀ x, L.prop x → m.truth x = m'.truth x) :
    holdsNary ops m c fs = holdsNary ops m' c fs := by
  cases fs with
  | nil => rfl
  | cons f fs =>
    rw [holdsNary, holdsNary, holds_congr f within.1 numbers truths,
      holdsNary_congr c fs within.2 numbers truths]

end

/-! ### Leaves -/

mutual

/-- The atoms and propositional variables from left to right. -/
def leaves : Formula → List Formula
  | .bool _ => []
  | .prop x => [.prop x]
  | .atom r a b => [.atom r a b]
  | .not f => f.leaves
  | .nary _ fs => leavesAll fs
  | .iff a b => a.leaves ++ b.leaves

def leavesAll : List Formula → List Formula
  | [] => []
  | f :: fs => f.leaves ++ leavesAll fs

end

mutual

/-- The formulas on the way to a formula that is put together from left to right: leaves, parts, and the
beginnings of conjunctions and disjunctions. -/
def stages : Formula → List Formula
  | .bool _ => []
  | .prop x => [.prop x]
  | .atom r a b => [.atom r a b]
  | .not f => f.stages
  | .nary c fs => stagesAll c [] fs
  | .iff f g => f.stages ++ g.stages ++ [.iff f g]

def stagesAll (c : Connective) (done : List Formula) : List Formula → List Formula
  | [] => []
  | f :: fs => f.stages ++ .nary c (done ++ [f]) :: stagesAll c (done ++ [f]) fs

end

mutual

theorem within_of_mem_leaves {g : Formula} (f : Formula) (within : f.Within L)
    (mem : g ∈ f.leaves) : g.Within L := by
  cases f with
  | bool => cases mem
  | prop x => exact List.mem_singleton.mp mem ▸ within
  | atom r a b => exact List.mem_singleton.mp mem ▸ within
  | not f => exact within_of_mem_leaves f within mem
  | nary c fs => exact within_of_mem_leavesAll fs within mem
  | iff a b =>
    rcases List.mem_append.mp mem with mem | mem
    · exact within_of_mem_leaves a within.1 mem
    · exact within_of_mem_leaves b within.2 mem

theorem within_of_mem_leavesAll {g : Formula} (fs : List Formula) (within : WithinAll L fs)
    (mem : g ∈ leavesAll fs) : g.Within L := by
  cases fs with
  | nil => cases mem
  | cons f fs =>
    rcases List.mem_append.mp mem with mem | mem
    · exact within_of_mem_leaves f within.1 mem
    · exact within_of_mem_leavesAll fs within.2 mem

end

mutual

theorem within_of_leaves (f : Formula) (within : ∀ g ∈ f.leaves, g.Within L) : f.Within L := by
  cases f with
  | bool => trivial
  | prop x => exact within _ List.mem_cons_self
  | atom r a b => exact within _ List.mem_cons_self
  | not f => exact within_of_leaves f within
  | nary c fs => exact withinAll_of_leavesAll fs within
  | iff a b =>
    have both := List.forall_mem_append.mp within
    exact ⟨within_of_leaves a both.1, within_of_leaves b both.2⟩

theorem withinAll_of_leavesAll (fs : List Formula) (within : ∀ g ∈ leavesAll fs, g.Within L) :
    WithinAll L fs := by
  cases fs with
  | nil => trivial
  | cons f fs =>
    have both := List.forall_mem_append.mp within
    exact ⟨within_of_leaves f both.1, withinAll_of_leavesAll fs both.2⟩

end

theorem mem_leavesAll {fs : List Formula} {g : Formula} :
    g ∈ leavesAll fs ↔ ∃ f ∈ fs, g ∈ f.leaves := by
  induction fs with
  | nil => simp [leavesAll]
  | cons f fs ih => simp [leavesAll, ih]

mutual

/-- Nothing occurs on the way to a formula but what occurs in it. -/
theorem leaves_of_mem_stages {g h : Formula} (f : Formula) (mem : g ∈ f.stages) (leaf : h ∈ g.leaves) :
    h ∈ f.leaves := by
  cases f with
  | bool => cases mem
  | prop x => exact List.mem_singleton.mp mem ▸ leaf
  | atom r a b => exact List.mem_singleton.mp mem ▸ leaf
  | not f => exact leaves_of_mem_stages f mem leaf
  | nary c fs =>
    rcases leaves_of_mem_stagesAll c [] fs mem leaf with ⟨_, none, -⟩ | inside
    · cases none
    · exact inside
  | iff a b =>
    rcases List.mem_append.mp mem with mem | mem
    · rcases List.mem_append.mp mem with mem | mem
      · exact List.mem_append_left _ (leaves_of_mem_stages a mem leaf)
      · exact List.mem_append_right _ (leaves_of_mem_stages b mem leaf)
    · exact List.mem_singleton.mp mem ▸ leaf

theorem leaves_of_mem_stagesAll {g h : Formula} (c : Connective) (done fs : List Formula)
    (mem : g ∈ stagesAll c done fs) (leaf : h ∈ g.leaves) :
    (∃ f ∈ done, h ∈ f.leaves) ∨ h ∈ leavesAll fs := by
  cases fs with
  | nil => cases mem
  | cons f fs =>
    rcases List.mem_append.mp mem with mem | mem
    · exact .inr (List.mem_append_left _ (leaves_of_mem_stages f mem leaf))
    -- The beginnings end with `f`, and all later ones go on from there.
    have split : (∃ f' ∈ done ++ [f], h ∈ f'.leaves) ∨ h ∈ leavesAll fs := by
      rcases List.mem_cons.mp mem with rfl | mem
      · exact .inl (mem_leavesAll.mp leaf)
      · exact leaves_of_mem_stagesAll c (done ++ [f]) fs mem leaf
    rcases split with ⟨f', here, inside⟩ | inside
    · rcases List.mem_append.mp here with old | new
      · exact .inl ⟨f', old, inside⟩
      · exact .inr (List.mem_append_left _ (List.mem_singleton.mp new ▸ inside))
    · exact .inr (List.mem_append_right _ inside)

end

mutual

theorem value_congr {leaf leaf' : Formula → Bool} (f : Formula)
    (same : ∀ g ∈ f.leaves, leaf g = leaf' g) : f.value leaf = f.value leaf' := by
  cases f with
  | bool => rfl
  | prop x => exact same _ List.mem_cons_self
  | atom r a b => exact same _ List.mem_cons_self
  | not f => rw [value, value, value_congr f same]
  | nary c fs => exact valueNary_congr c fs same
  | iff a b =>
    have both := List.forall_mem_append.mp same
    rw [value, value, value_congr a both.1, value_congr b both.2]

theorem valueNary_congr {leaf leaf' : Formula → Bool} (c : Connective) (fs : List Formula)
    (same : ∀ g ∈ leavesAll fs, leaf g = leaf' g) : valueNary leaf c fs = valueNary leaf' c fs := by
  cases fs with
  | nil => rfl
  | cons f fs =>
    have both := List.forall_mem_append.mp same
    rw [valueNary, valueNary, value_congr f both.1, valueNary_congr c fs both.2]

end

mutual

theorem prop_or_isAtom_of_mem_leaves {g : Formula} (f : Formula) (mem : g ∈ f.leaves) :
    (∃ x, g = .prop x) ∨ g.isAtom = true := by
  cases f with
  | bool => cases mem
  | prop x => exact .inl ⟨x, List.mem_singleton.mp mem⟩
  | atom r a b =>
    rw [List.mem_singleton.mp mem]
    exact .inr rfl
  | not f => exact prop_or_isAtom_of_mem_leaves f mem
  | nary c fs => exact prop_or_isAtom_of_mem_leavesAll fs mem
  | iff a b =>
    rcases List.mem_append.mp mem with mem | mem
    · exact prop_or_isAtom_of_mem_leaves a mem
    · exact prop_or_isAtom_of_mem_leaves b mem

theorem prop_or_isAtom_of_mem_leavesAll {g : Formula} (fs : List Formula)
    (mem : g ∈ leavesAll fs) : (∃ x, g = .prop x) ∨ g.isAtom = true := by
  cases fs with
  | nil => cases mem
  | cons f fs =>
    rcases List.mem_append.mp mem with mem | mem
    · exact prop_or_isAtom_of_mem_leaves f mem
    · exact prop_or_isAtom_of_mem_leavesAll fs mem

end

mutual

theorem leaf_cases {g : Formula} (f : Formula) (mem : g ∈ f.leaves) :
    (∃ x, g = .prop x) ∨ g ∈ f.atomOccurrences := by
  cases f with
  | bool => cases mem
  | prop x => exact .inl ⟨x, List.mem_singleton.mp mem⟩
  | atom r a b => exact .inr mem
  | not f => exact leaf_cases f mem
  | nary c fs => exact leaf_casesAll fs mem
  | iff a b =>
    rcases List.mem_append.mp mem with mem | mem
    · exact (leaf_cases a mem).imp_right (List.mem_append_left _)
    · exact (leaf_cases b mem).imp_right (List.mem_append_right _)

theorem leaf_casesAll {g : Formula} (fs : List Formula) (mem : g ∈ leavesAll fs) :
    (∃ x, g = .prop x) ∨ g ∈ atomOccurrencesAll fs := by
  cases fs with
  | nil => cases mem
  | cons f fs =>
    rcases List.mem_append.mp mem with mem | mem
    · exact (leaf_cases f mem).imp_right (List.mem_append_left _)
    · exact (leaf_casesAll fs mem).imp_right (List.mem_append_right _)

end

theorem prop_of_mem_leaves {f g : Formula} (noAtoms : f.atomOccurrences = []) (mem : g ∈ f.leaves) :
    ∃ x, g = .prop x := by
  refine (leaf_cases f mem).resolve_right ?_
  simp [noAtoms]

/-! ### Builders -/

theorem within_compare {r : Relation} {a b : Term} (left : a.Within L) (right : b.Within L) :
    (compare r a b).Within L := by
  unfold compare
  split
  · trivial
  · exact ⟨left, right⟩

theorem leaves_negate (f : Formula) : f.negate.leaves = f.leaves := by
  unfold negate
  split <;> rfl

theorem within_negate {f : Formula} (within : f.Within L) : f.negate.Within L := by
  apply within_of_leaves
  rw [leaves_negate]
  exact fun g => within_of_mem_leaves f within

theorem leaves_collect {c : Connective} {acc fs gs : List Formula} {g : Formula}
    (collected : collect c acc fs = some gs) (mem : g ∈ leavesAll gs) :
    g ∈ leavesAll acc ∨ g ∈ leavesAll fs := by
  induction fs generalizing acc with
  | nil =>
    cases collected
    exact .inl mem
  | cons f fs ih =>
    simp only [leavesAll, List.mem_append]
    have one (old : g ∈ leavesAll (addNew acc f)) : g ∈ leavesAll acc ∨ g ∈ f.leaves := by
      obtain ⟨h, here, inside⟩ := mem_leavesAll.mp old
      rcases mem_addNew.mp here with known | rfl
      · exact .inl (mem_leavesAll.mpr ⟨h, known, inside⟩)
      · exact .inr inside
    have added (collected : collect c (addNew acc f) fs = some gs) :
        g ∈ leavesAll acc ∨ g ∈ f.leaves ∨ g ∈ leavesAll fs := by
      rcases ih collected with old | new
      · exact (one old).imp_right .inl
      · exact .inr (.inr new)
    -- Only constants and nested formulas of the same connective are not added as they are.
    cases f with
    | bool v =>
      rw [collect] at collected
      split at collected
      · exact (ih collected).imp_right .inr
      · cases collected
    | nary c' hs =>
      rw [collect] at collected
      split at collected
      · rcases ih collected with old | new
        · obtain ⟨h, here, inside⟩ := mem_leavesAll.mp old
          rcases mem_foldl_addNew.mp here with known | inner
          · exact .inl (mem_leavesAll.mpr ⟨h, known, inside⟩)
          · exact .inr (.inl (mem_leavesAll.mpr ⟨h, inner, inside⟩))
        · exact .inr (.inr new)
      · exact added collected
    | prop x => exact added collected
    | atom r a b => exact added collected
    | not f => exact added collected
    | iff a b => exact added collected

theorem leaves_join {c : Connective} {fs : List Formula} {g : Formula}
    (mem : g ∈ (join c fs).leaves) : ∃ f ∈ fs, g ∈ f.leaves := by
  unfold join at mem
  cases collected : collect c [] fs with
  | none => simp [collected, leaves] at mem
  | some gs =>
    have listed : g ∈ leavesAll gs := by
      match gs with
      | [] => simp [collected, leaves] at mem
      | [f] => simpa [collected, leavesAll] using mem
      | f :: f' :: gs => simpa [collected, leaves] using mem
    rcases leaves_collect collected listed with old | new
    · cases old
    · exact mem_leavesAll.mp new

theorem within_join {c : Connective} {fs : List Formula} (within : ∀ f ∈ fs, f.Within L) :
    (join c fs).Within L := by
  apply within_of_leaves
  intro g mem
  obtain ⟨f, here, inside⟩ := leaves_join mem
  exact within_of_mem_leaves f (within f here) inside

theorem within_equiv {a b : Formula} (left : a.Within L) (right : b.Within L) :
    (equiv a b).Within L := by
  unfold equiv
  split
  · trivial
  · split
    · exact right
    · exact left
    · exact within_negate right
    · exact within_negate left
    · exact ⟨left, right⟩

end Formula

end ProgramAnalysis
