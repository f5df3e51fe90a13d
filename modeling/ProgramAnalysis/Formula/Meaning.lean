import ProgramAnalysis.Formula.Basic

/-!
The meaning of formulas. Terms have integer values once their operators and variables have a
meaning; operators may mean any total functions. Every builder keeps the meaning of what it builds,
and changing variables in a formula is changing their values. The builders of connectives keep more:
the truth value for any values of the atoms, whether or not numbers give the atoms these values.
-/
namespace ProgramAnalysis

/-- The functions that the operators of terms stand for. -/
structure Operators where
  neg : Int → Int
  bitNot : Int → Int
  binary : ArithOp → Int → Int → Int

/-- Values for the variables of terms and the propositional variables. -/
structure Assignment where
  number : TermVar → Int
  truth : String → Bool

def Term.eval (ops : Operators) (values : TermVar → Int) : Term → Int
  | .const c => c
  | .var x => values x
  | .neg t => ops.neg (t.eval ops values)
  | .bitNot t => ops.bitNot (t.eval ops values)
  | .binary op a b => ops.binary op (a.eval ops values) (b.eval ops values)

theorem Term.eval_mapVars (ops : Operators) (values : TermVar → Int) (g : TermVar → TermVar)
    (t : Term) : (t.mapVars g).eval ops values = t.eval ops (fun x => values (g x)) := by
  induction t with
  | const => rfl
  | var => rfl
  | neg t ih => simp [mapVars, eval, ih]
  | bitNot t ih => simp [mapVars, eval, ih]
  | binary op a b iha ihb => simp [mapVars, eval, iha, ihb]

theorem Term.eq_const_of_const? {t : Term} {c : Int} (h : t.const? = some c) : t = .const c := by
  cases t <;> simp_all [const?]

def Connective.combine : Connective → Bool → Bool → Bool
  | .and, a, b => a && b
  | .or, a, b => a || b

namespace Formula

mutual

def holds (ops : Operators) (m : Assignment) : Formula → Bool
  | .bool v => v
  | .prop x => m.truth x
  | .atom r a b => r.holds (a.eval ops m.number) (b.eval ops m.number)
  | .not f => !f.holds ops m
  | .nary c fs => holdsNary ops m c fs
  | .iff a b => a.holds ops m == b.holds ops m

def holdsNary (ops : Operators) (m : Assignment) (c : Connective) : List Formula → Bool
  | [] => c.unit
  | f :: fs => c.combine (f.holds ops m) (holdsNary ops m c fs)

end

mutual

/-- The truth value when atoms and propositional variables have the given ones. -/
def value (leaf : Formula → Bool) : Formula → Bool
  | .bool v => v
  | .prop x => leaf (.prop x)
  | .atom r a b => leaf (.atom r a b)
  | .not f => !f.value leaf
  | .nary c fs => valueNary leaf c fs
  | .iff a b => a.value leaf == b.value leaf

def valueNary (leaf : Formula → Bool) (c : Connective) : List Formula → Bool
  | [] => c.unit
  | f :: fs => c.combine (f.value leaf) (valueNary leaf c fs)

end

variable (ops : Operators) (m : Assignment) (leaf : Formula → Bool)

mutual

theorem value_holds (f : Formula) : f.value (fun g => g.holds ops m) = f.holds ops m := by
  cases f with
  | bool => rfl
  | prop => rfl
  | atom => rfl
  | not f => simp [value, holds, value_holds f]
  | nary c fs => simp [value, holds, valueNary_holds c fs]
  | iff a b => simp [value, holds, value_holds a, value_holds b]

theorem valueNary_holds (c : Connective) (fs : List Formula) :
    valueNary (fun g => g.holds ops m) c fs = holdsNary ops m c fs := by
  cases fs with
  | nil => rfl
  | cons f fs => simp [valueNary, holdsNary, value_holds f, valueNary_holds c fs]

end

theorem valueNary_append (c : Connective) (fs gs : List Formula) :
    valueNary leaf c (fs ++ gs) = c.combine (valueNary leaf c fs) (valueNary leaf c gs) := by
  induction fs with
  | nil => cases c <;> simp [valueNary, Connective.combine, Connective.unit]
  | cons f fs ih =>
    rw [List.cons_append, valueNary, valueNary, ih]
    cases c <;> simp [Connective.combine, Bool.and_assoc, Bool.or_assoc]

theorem valueNary_eq_unit_iff (c : Connective) (fs : List Formula) :
    valueNary leaf c fs = c.unit ↔ ∀ f ∈ fs, f.value leaf = c.unit := by
  induction fs with
  | nil => simp [valueNary]
  | cons f fs ih =>
    rw [valueNary, List.forall_mem_cons, ← ih]
    cases c <;> simp [Connective.combine, Connective.unit]

theorem holdsNary_eq_unit_iff (c : Connective) (fs : List Formula) :
    holdsNary ops m c fs = c.unit ↔ ∀ f ∈ fs, f.holds ops m = c.unit := by
  simpa only [valueNary_holds, value_holds] using
    valueNary_eq_unit_iff (fun g => g.holds ops m) c fs

mutual

theorem holds_mapVars (g : TermVar → TermVar) (f : Formula) :
    (f.mapVars g).holds ops m = f.holds ops { m with number := fun x => m.number (g x) } := by
  cases f with
  | bool => rfl
  | prop => rfl
  | atom => simp [mapVars, holds, Term.eval_mapVars]
  | not f => simp [mapVars, holds, holds_mapVars g f]
  | nary c fs => simp [mapVars, holds, holdsNary_mapVarsAll g c fs]
  | iff a b => simp [mapVars, holds, holds_mapVars g a, holds_mapVars g b]

theorem holdsNary_mapVarsAll (g : TermVar → TermVar) (c : Connective) (fs : List Formula) :
    holdsNary ops m c (mapVarsAll g fs) =
      holdsNary ops { m with number := fun x => m.number (g x) } c fs := by
  cases fs with
  | nil => rfl
  | cons f fs => simp [mapVarsAll, holdsNary, holds_mapVars g f, holdsNary_mapVarsAll g c fs]

end

/-! ### Builders -/

@[simp] theorem holds_compare (r : Relation) (a b : Term) :
    (compare r a b).holds ops m = r.holds (a.eval ops m.number) (b.eval ops m.number) := by
  unfold compare
  split
  · rename_i ha hb
    rw [Term.eq_const_of_const? ha, Term.eq_const_of_const? hb]
    rfl
  · rfl

@[simp] theorem value_negate (f : Formula) : f.negate.value leaf = !f.value leaf := by
  unfold negate
  split <;> simp [value]

@[simp] theorem holds_negate (f : Formula) : f.negate.holds ops m = !f.holds ops m := by
  simpa only [value_holds] using value_negate (fun g => g.holds ops m) f

theorem mem_addNew {fs : List Formula} {f g : Formula} : g ∈ addNew fs f ↔ g ∈ fs ∨ g = f := by
  unfold addNew
  split
  · rename_i known
    have : f ∈ fs := by simpa using known
    constructor
    · exact Or.inl
    · rintro (h | rfl) <;> assumption
  · simp

theorem mem_foldl_addNew {acc gs : List Formula} {g : Formula} :
    g ∈ gs.foldl addNew acc ↔ g ∈ acc ∨ g ∈ gs := by
  induction gs generalizing acc with
  | nil => simp
  | cons f gs ih => simp [ih, mem_addNew, or_assoc]

/-- Unless an argument decides alone, the collected list and the arguments decide alike. -/
theorem collect_eq_unit_iff (c : Connective) (acc fs : List Formula) :
    (∃ gs, collect c acc fs = some gs ∧ ∀ g ∈ gs, g.value leaf = c.unit) ↔
      (∀ g ∈ acc, g.value leaf = c.unit) ∧ ∀ f ∈ fs, f.value leaf = c.unit := by
  induction fs generalizing acc with
  | nil => simp [collect]
  | cons f fs ih =>
    have one : (∀ g ∈ addNew acc f, g.value leaf = c.unit) ↔
        (∀ g ∈ acc, g.value leaf = c.unit) ∧ f.value leaf = c.unit := by
      simp [mem_addNew, or_imp, forall_and]
    have step (acc' : List Formula)
        (h : (∀ g ∈ acc', g.value leaf = c.unit) ↔
          (∀ g ∈ acc, g.value leaf = c.unit) ∧ f.value leaf = c.unit) :
        (∃ gs, collect c acc' fs = some gs ∧ ∀ g ∈ gs, g.value leaf = c.unit) ↔
          (∀ g ∈ acc, g.value leaf = c.unit) ∧
            ∀ f' ∈ f :: fs, f'.value leaf = c.unit := by
      rw [ih, h, List.forall_mem_cons, and_assoc]
    cases f with
    | bool v =>
      by_cases hv : v = c.unit
      · rw [collect, if_pos hv]
        exact step acc (by simp [value, hv])
      · simp [collect, hv, value]
    | nary c' gs =>
      rw [collect]
      by_cases same : c' = c
      · subst same
        rw [if_pos rfl]
        refine step _ ?_
        rw [value, valueNary_eq_unit_iff]
        simp [mem_foldl_addNew, or_imp, forall_and]
      · rw [if_neg same]
        exact step _ one
    | prop x => exact step _ one
    | atom r a b => exact step _ one
    | not f => exact step _ one
    | iff a b => exact step _ one

@[simp] theorem value_join (c : Connective) (fs : List Formula) :
    (join c fs).value leaf = valueNary leaf c fs := by
  have unit : (join c fs).value leaf = c.unit ↔ valueNary leaf c fs = c.unit := by
    have := collect_eq_unit_iff leaf c [] fs
    rw [valueNary_eq_unit_iff]
    simp only [List.not_mem_nil, false_implies, implies_true, true_and] at this
    rw [← this]
    unfold join
    cases h : collect c [] fs with
    | none => simp [value]
    | some gs =>
      match gs with
      | [] => simp [value]
      | [f] => simp
      | f :: g :: gs => simp [value, valueNary_eq_unit_iff]
  revert unit
  cases c.unit <;> cases (join c fs).value leaf <;> cases valueNary leaf c fs <;> simp

@[simp] theorem holds_join (c : Connective) (fs : List Formula) :
    (join c fs).holds ops m = holdsNary ops m c fs := by
  simpa only [valueNary_holds, value_holds] using value_join (fun g => g.holds ops m) c fs

variable {ops m} in
theorem holds_conj {fs : List Formula} :
    (conj fs).holds ops m = true ↔ ∀ f ∈ fs, f.holds ops m = true := by
  rw [conj, holds_join]
  exact holdsNary_eq_unit_iff ops m .and fs

variable {ops m} in
theorem holds_disj {fs : List Formula} :
    (disj fs).holds ops m = true ↔ ∃ f ∈ fs, f.holds ops m = true := by
  have none := holdsNary_eq_unit_iff ops m .or fs
  rw [disj, holds_join, ← Bool.not_eq_false, show false = Connective.or.unit from rfl, none]
  simp [Connective.unit]

@[simp] theorem value_equiv (a b : Formula) :
    (equiv a b).value leaf = (a.value leaf == b.value leaf) := by
  unfold equiv
  split
  · simp_all [value]
  · split <;> simp [value, Bool.beq_comm]

@[simp] theorem holds_equiv (a b : Formula) :
    (equiv a b).holds ops m = (a.holds ops m == b.holds ops m) := by
  simpa only [value_holds] using value_equiv (fun g => g.holds ops m) a b

end Formula

end ProgramAnalysis
