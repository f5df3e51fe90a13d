import ProgramAnalysis.Formula.Term

/-!
Quantifier-free formulas over integer terms. Propositional variables stand for predicates and have
no index. Formulas are made by the builders, which only do what is plain to see: constants, double
negation, flattening of one level, repeated arguments.
-/
namespace ProgramAnalysis

inductive Relation where
  | eq | le | lt
  deriving DecidableEq, Repr

namespace Relation

def name : Relation → String
  | eq => "="
  | le => "<="
  | lt => "<"

def holds (r : Relation) (a b : Int) : Bool :=
  match r with
  | eq => a = b
  | le => a ≤ b
  | lt => a < b

end Relation

inductive Formula where
  | bool (value : Bool)
  | prop (name : String)
  | atom (r : Relation) (a b : Term)
  | not (f : Formula)
  | nary (c : Connective) (args : List Formula)
  | iff (a b : Formula)
  deriving Repr

namespace Formula

mutual

def equal : Formula → Formula → Bool
  | .bool v, .bool w => v == w
  | .prop x, .prop y => x == y
  | .atom r a b, .atom r' a' b' => r == r' && a == a' && b == b'
  | .not f, .not g => f.equal g
  | .nary c fs, .nary c' gs => c == c' && equalAll fs gs
  | .iff a b, .iff a' b' => a.equal a' && b.equal b'
  | _, _ => false

def equalAll : List Formula → List Formula → Bool
  | [], [] => true
  | f :: fs, g :: gs => f.equal g && equalAll fs gs
  | _, _ => false

end

mutual

theorem equal_self (f : Formula) : f.equal f = true := by
  cases f with
  | bool => simp [equal]
  | prop => simp [equal]
  | atom => simp [equal]
  | not f => simp [equal, equal_self f]
  | nary c fs => simp [equal, equalAll_self fs]
  | iff a b => simp [equal, equal_self a, equal_self b]

theorem equalAll_self (fs : List Formula) : equalAll fs fs = true := by
  cases fs with
  | nil => simp [equalAll]
  | cons f fs => simp [equalAll, equal_self f, equalAll_self fs]

end

mutual

theorem eq_of_equal {f g : Formula} (h : f.equal g = true) : f = g := by
  match f, g, h with
  | .bool v, .bool w, h => simpa [equal] using h
  | .prop x, .prop y, h => simpa [equal] using h
  | .atom r a b, .atom r' a' b', h => simpa [equal, and_assoc] using h
  | .not f, .not g, h => exact congrArg Formula.not (eq_of_equal (by simpa [equal] using h))
  | .nary c fs, .nary c' gs, h =>
    simp only [equal, Bool.and_eq_true, beq_iff_eq] at h
    rw [h.1, eq_of_equalAll h.2]
  | .iff a b, .iff a' b', h =>
    simp only [equal, Bool.and_eq_true] at h
    rw [eq_of_equal h.1, eq_of_equal h.2]

theorem eq_of_equalAll {fs gs : List Formula} (h : equalAll fs gs = true) : fs = gs := by
  match fs, gs, h with
  | [], [], _ => rfl
  | f :: fs, g :: gs, h =>
    simp only [equalAll, Bool.and_eq_true] at h
    rw [eq_of_equal h.1, eq_of_equalAll h.2]

end

theorem equal_iff {f g : Formula} : f.equal g = true ↔ f = g :=
  ⟨eq_of_equal, fun h => h ▸ equal_self f⟩

instance : DecidableEq Formula := fun _ _ => decidable_of_iff _ equal_iff

instance : Inhabited Formula := ⟨.bool true⟩

mutual

def toText : Formula → String
  | .bool true => "true"
  | .bool false => "false"
  | .prop x => x
  | .atom r a b => "(" ++ r.name ++ " " ++ a.toText ++ " " ++ b.toText ++ ")"
  | .not f => "(not " ++ f.toText ++ ")"
  | .nary c fs => "(" ++ c.name ++ argsToText fs ++ ")"
  | .iff a b => "(= " ++ a.toText ++ " " ++ b.toText ++ ")"

def argsToText : List Formula → String
  | [] => ""
  | f :: fs => " " ++ f.toText ++ argsToText fs

end

def isAtom : Formula → Bool
  | .atom .. => true
  | _ => false

/-- The arguments of a conjunction; any other formula is its only conjunct. -/
def conjuncts : Formula → List Formula
  | .nary .and fs => fs
  | f => [f]

/-! ### Builders -/

/-- An atom; two constants are compared at once. -/
def compare (r : Relation) (a b : Term) : Formula :=
  match a.const?, b.const? with
  | some x, some y => .bool (r.holds x y)
  | _, _ => .atom r a b

def equals (a b : Term) : Formula := compare .eq a b

def atMost (a b : Term) : Formula := compare .le a b

def lessThan (a b : Term) : Formula := compare .lt a b

def greaterThan (a b : Term) : Formula := lessThan b a

def atLeast (a b : Term) : Formula := atMost b a

/-- The atoms by the symbols of their comparisons. -/
def compare? : String → Option (Term → Term → Formula)
  | "=" => some equals
  | "<=" => some atMost
  | "<" => some lessThan
  | ">" => some greaterThan
  | ">=" => some atLeast
  | _ => none

def negate : Formula → Formula
  | .bool v => .bool !v
  | .not f => f
  | f => .not f

/-- Adds a formula at the end unless it is there. -/
def addNew (fs : List Formula) (f : Formula) : List Formula :=
  if fs.contains f then fs else fs ++ [f]

/-- The arguments of a connective in order of first occurrence, nested arguments of the same
connective unfolded. There is no list if an argument decides alone. -/
def collect (c : Connective) : List Formula → List Formula → Option (List Formula)
  | acc, [] => some acc
  | acc, f :: fs =>
    match f with
    | .bool v => if v = c.unit then collect c acc fs else none
    | .nary c' gs => collect c (if c' = c then gs.foldl addNew acc else addNew acc f) fs
    | _ => collect c (addNew acc f) fs

def join (c : Connective) (fs : List Formula) : Formula :=
  match collect c [] fs with
  | none => .bool !c.unit
  | some [] => .bool c.unit
  | some [f] => f
  | some fs => .nary c fs

def conj (fs : List Formula) : Formula := join .and fs

def disj (fs : List Formula) : Formula := join .or fs

/-- Equivalence; a constant side leaves the other side or its negation. -/
def equiv (a b : Formula) : Formula :=
  if a = b then .bool true
  else match a, b with
  | .bool true, b => b
  | a, .bool true => a
  | .bool false, b => negate b
  | a, .bool false => negate a
  | a, b => .iff a b

/-! ### Indices -/

mutual

def mapVars (f : TermVar → TermVar) : Formula → Formula
  | .bool v => .bool v
  | .prop x => .prop x
  | .atom r a b => .atom r (a.mapVars f) (b.mapVars f)
  | .not g => .not (g.mapVars f)
  | .nary c gs => .nary c (mapVarsAll f gs)
  | .iff a b => .iff (a.mapVars f) (b.mapVars f)

def mapVarsAll (f : TermVar → TermVar) : List Formula → List Formula
  | [] => []
  | g :: gs => g.mapVars f :: mapVarsAll f gs

end

/-- Every variable without an index has the index of a map; nothing is simplified. -/
def instantiate (s : SsaMap) (f : Formula) : Formula := f.mapVars (TermVar.instantiate s)

/-- No variable has an index. -/
def uninstantiate (f : Formula) : Formula := f.mapVars TermVar.uninstantiate

end Formula

end ProgramAnalysis
