import ProgramAnalysis.Formula.Basic

/-!
The atoms of a formula and what its shape alone tells: whether it is a conjunction of literals, and
whether it entails another formula conjunct by conjunct.
-/
namespace ProgramAnalysis

namespace Formula

mutual

/-- The occurrences of atoms from left to right. -/
def atomOccurrences : Formula → List Formula
  | .bool _ => []
  | .prop _ => []
  | .atom r a b => [.atom r a b]
  | .not f => f.atomOccurrences
  | .nary _ fs => atomOccurrencesAll fs
  | .iff a b => a.atomOccurrences ++ b.atomOccurrences

def atomOccurrencesAll : List Formula → List Formula
  | [] => []
  | f :: fs => f.atomOccurrences ++ atomOccurrencesAll fs

end

def arguments : Formula → List Formula
  | .not f => [f]
  | .nary _ fs => fs
  | .iff a b => [a, b]
  | _ => []

mutual

/-- The number of formulas in a formula, itself included. -/
def size : Formula → Nat
  | .not f => f.size + 1
  | .nary _ fs => sizeAll fs + 1
  | .iff a b => a.size + b.size + 1
  | _ => 1

def sizeAll : List Formula → Nat
  | [] => 0
  | f :: fs => f.size + sizeAll fs

end

theorem size_eq (f : Formula) : f.size = sizeAll f.arguments + 1 := by
  cases f <;> simp [size, sizeAll, arguments]

theorem sizeAll_append (fs gs : List Formula) : sizeAll (fs ++ gs) = sizeAll fs + sizeAll gs := by
  induction fs with
  | nil => simp [sizeAll]
  | cons f fs ih => rw [List.cons_append, sizeAll, sizeAll, ih, Nat.add_assoc]

theorem size_le_sizeAll {f : Formula} {fs : List Formula} (mem : f ∈ fs) : f.size ≤ sizeAll fs := by
  induction mem with
  | head => exact Nat.le_add_right _ _
  | tail _ _ ih => exact Nat.le_trans ih (Nat.le_add_left _ _)

/-- A property of formulas that comes from their arguments holds for all formulas. -/
theorem arguments_induction {motive : Formula → Prop}
    (step : ∀ f, (∀ g ∈ f.arguments, motive g) → motive f) (f : Formula) : motive f :=
  step f fun g _ => arguments_induction step g
termination_by f.size
decreasing_by
  rw [size_eq f]
  exact Nat.lt_succ_of_le (size_le_sizeAll ‹_›)

/-- An atom as it is collected, with its indices or without. -/
def collected (symbolic : Bool) (f : Formula) : Formula := if symbolic then f.uninstantiate else f

/-- Pushes formulas on a stack from the last one on, so that the first one is on top. -/
def pushAll (fs stack : List Formula) : List Formula := fs.foldr List.cons stack

theorem pushAll_eq (fs stack : List Formula) : pushAll fs stack = fs ++ stack := by
  rw [pushAll, List.foldr_cons_eq_append, List.map_id']

/-- Goes on with a search for atoms that has found `found` and still looks at `pending`, a stack with
its top first. -/
def atomsFrom (symbolic : Bool) (found : List Formula) : List Formula → List Formula
  | [] => found
  | .bool _ :: pending => atomsFrom symbolic found pending
  | .prop _ :: pending => atomsFrom symbolic found pending
  | .atom r a b :: pending =>
    atomsFrom symbolic (addNew found ((Formula.atom r a b).collected symbolic)) pending
  | .not f :: pending => atomsFrom symbolic found (f :: pending)
  | .nary _ fs :: pending => atomsFrom symbolic found (pushAll fs pending)
  | .iff a b :: pending => atomsFrom symbolic found (a :: b :: pending)
termination_by pending => sizeAll pending
decreasing_by
  all_goals simp only [sizeAll, size, pushAll_eq, sizeAll_append]
  all_goals omega

/-- Every atom once, in order of first occurrence. -/
def atoms (f : Formula) : List Formula := atomsFrom false [] [f]

def symbolicAtoms (f : Formula) : List Formula := atomsFrom true [] [f]

mutual

/-- Whether the formula is a conjunction of literals. -/
def isConjunctive : Formula → Bool
  | .not (.prop _) => true
  | .not (.atom ..) => true
  | .not _ => false
  | .nary .and fs => areConjunctive fs
  | .nary .or _ => false
  | .iff _ _ => false
  | _ => true

def areConjunctive : List Formula → Bool
  | [] => true
  | f :: fs => f.isConjunctive && areConjunctive fs

end

/-- A cheap sufficient test: every conjunct of `b` is one of `a`. -/
def entailsSyntactically (a b : Formula) : Bool :=
  b = .bool true || a = b || b.conjuncts.all a.conjuncts.contains

end Formula

end ProgramAnalysis
