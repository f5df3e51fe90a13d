import ProgramAnalysis.PathFormula.Extend
import ProgramAnalysis.Proofs.Linear.Constraint
import ProgramAnalysis.Proofs.PathFormula.Indices

/-! Expressions in formulas. Where an expression has a meaning at some indices, its values in a store are
exactly the values that the meaning has in the assignments that read the store there. -/
namespace ProgramAnalysis

/-- Values are all integers, and every operation has a result. -/
def Dialect.unbounded (ops : Operators) : Dialect where
  value _ := True
  neg x := some (ops.neg x)
  bitNot := ops.bitNot
  arith op x y := some (ops.binary op x y)
  keepsResult := true

variable {ops : Operators} {m m' : Assignment} {ssa ssa' : SsaMap} {s t : Store} {x : String}
  {v : Int} {L L' : Vocabulary}

namespace Expr

variable {e : Expr}

def Fits : Expr → Prop
  | .const c => Machine.fits Machine.bound64 c = true
  | .var _ | .nondet => True
  | .deref a | .neg a | .not a | .bitNot a => a.Fits
  | .arith _ a b | .compare _ a b | .logic _ a b => a.Fits ∧ b.Fits

def Within (L : Vocabulary) : Expr → Prop
  | .const c => L.number c
  | .var _ | .nondet => True
  | .deref a | .neg a | .not a | .bitNot a => a.Within L
  | .arith _ a b | .compare _ a b | .logic _ a b => a.Within L ∧ b.Within L

theorem Fits.within (fits : e.Fits) : e.Within .arithmetic := by
  induction e with
  | const c => exact fits
  | var | nondet => trivial
  | deref a ih | neg a ih | not a ih | bitNot a ih => exact ih fits
  | arith op a b ihA ihB => exact ⟨ihA fits.1, ihB fits.2⟩
  | compare c a b ihA ihB => exact ⟨ihA fits.1, ihB fits.2⟩
  | logic c a b ihA ihB => exact ⟨ihA fits.1, ihB fits.2⟩

theorem within_any (e : Expr) : e.Within .any := by
  induction e with
  | const | var | nondet => trivial
  | deref a ih | neg a ih | not a ih | bitNot a ih => exact ih
  | arith op a b ihA ihB => exact ⟨ihA, ihB⟩
  | compare c a b ihA ihB => exact ⟨ihA, ihB⟩
  | logic c a b ihA ihB => exact ⟨ihA, ihB⟩

/-- An expression that a term can say. -/
def Arithmetic : Expr → Prop
  | .var _ | .const _ => True
  | .neg a | .bitNot a => a.Arithmetic
  | .arith _ a b => a.Arithmetic ∧ b.Arithmetic
  | .nondet | .deref _ | .not _ | .compare .. | .logic .. => False

/-- An expression that a formula can say. -/
def Expressible : Expr → Prop
  | .compare _ a b => a.Arithmetic ∧ b.Arithmetic
  | .logic _ a b => a.Expressible ∧ b.Expressible
  | .not a => a.Expressible
  | e => e.Arithmetic

/-- An expression that has every value. -/
def Open : Expr → Prop
  | .nondet | .deref _ => True
  | _ => False

theorem Open.evaluates (free : e.Open) (s : Store) (v : Int) :
    e.Evaluates (.unbounded ops) s v := by
  cases e with
  | nondet => exact .nondet trivial
  | deref a => exact .deref trivial
  | _ => exact free.elim

theorem Arithmetic.exists_term (said : e.Arithmetic) (ssa : SsaMap) : ∃ u, e.term? ssa = some u := by
  induction e with
  | var | const => exact ⟨_, rfl⟩
  | neg a ih | bitNot a ih =>
    obtain ⟨u, known⟩ := ih said
    exact ⟨_, by rw [term?, known]; rfl⟩
  | arith op a b ihA ihB =>
    obtain ⟨u, knownA⟩ := ihA said.1
    obtain ⟨w, knownB⟩ := ihB said.2
    exact ⟨.binary op u w, by rw [term?, knownA, knownB]⟩
  | _ => exact said.elim

theorem of_term?_arith {op : ArithOp} {a b : Expr} {u : Term}
    (found : (Expr.arith op a b).term? ssa = some u) :
    ∃ w w', a.term? ssa = some w ∧ b.term? ssa = some w' ∧ u = .binary op w w' := by
  simp only [term?] at found
  split at found
  · rename_i w w' knownA knownB
    exact ⟨w, w', knownA, knownB, (Option.some.inj found).symm⟩
  · cases found

theorem term?_evaluates {u : Term} (reads : m.At ssa s) (found : e.term? ssa = some u) :
    e.Evaluates (.unbounded ops) s (u.eval ops m.number) := by
  induction e generalizing u with
  | var x =>
    cases found
    have same : (Term.indexed x (ssa.index x)).eval ops m.number = s x := reads x
    rw [same]
    exact .var x
  | const c =>
    cases found
    exact .const c
  | neg a ih =>
    obtain ⟨w, known, rfl⟩ := Option.map_eq_some_iff.mp found
    exact .neg (ih known) rfl
  | bitNot a ih =>
    obtain ⟨w, known, rfl⟩ := Option.map_eq_some_iff.mp found
    exact .bitNot (ih known)
  | arith op a b ihA ihB =>
    obtain ⟨w, w', knownA, knownB, rfl⟩ := of_term?_arith found
    exact .arith (ihA knownA) (ihB knownB) rfl
  | _ => cases found

theorem term?_eval {u : Term} (reads : m.At ssa s) (value : e.Evaluates (.unbounded ops) s v)
    (found : e.term? ssa = some u) : u.eval ops m.number = v := by
  induction value generalizing u with
  | var x =>
    cases found
    exact reads x
  | const c =>
    cases found
    rfl
  | neg operand result ih =>
    obtain ⟨w, known, rfl⟩ := Option.map_eq_some_iff.mp found
    rw [Term.eval, ih known]
    exact Option.some.inj result
  | bitNot operand ih =>
    obtain ⟨w, known, rfl⟩ := Option.map_eq_some_iff.mp found
    rw [Term.eval, ih known]
    rfl
  | arith left right result ihLeft ihRight =>
    obtain ⟨w, w', knownA, knownB, rfl⟩ := of_term?_arith found
    rw [Term.eval, ihLeft knownA, ihRight knownB]
    exact Option.some.inj result
  | nondet => cases found
  | deref => cases found
  | not => cases found
  | compare => cases found
  | logic => cases found
  | decided => cases found

theorem term?_within {u : Term} (within : e.Within L) (found : e.term? ssa = some u) :
    u.Within (L.upTo ssa) := by
  induction e generalizing u with
  | var x =>
    cases found
    exact ⟨_, rfl, Nat.le_refl _⟩
  | const c =>
    cases found
    exact within
  | neg a ih | bitNot a ih =>
    obtain ⟨w, known, rfl⟩ := Option.map_eq_some_iff.mp found
    exact (ih within known : w.Within _)
  | arith op a b ihA ihB =>
    obtain ⟨w, w', knownA, knownB, rfl⟩ := of_term?_arith found
    exact ⟨ihA within.1 knownA, ihB within.2 knownB⟩
  | _ => cases found

end Expr

namespace Formula

theorem holds_equals (a b : Term) :
    (equals a b).holds ops m = true ↔ a.eval ops m.number = b.eval ops m.number := by
  rw [equals, holds_compare]
  exact decide_eq_true_iff

theorem holds_ofComparison (c : Comparison) (a b : Term) :
    (ofComparison c a b).holds ops m = c.holds (a.eval ops m.number) (b.eval ops m.number) := by
  cases c with
  | ne => simp [ofComparison, equals, Comparison.holds, Relation.holds]
  | _ => simp [ofComparison, equals, lessThan, atMost, Comparison.holds, Relation.holds]

theorem holds_ofLogic (c : Connective) (f g : Formula) :
    (ofLogic c f g).holds ops m = c.combine (f.holds ops m) (g.holds ops m) := by
  rw [ofLogic, holds_join]
  cases c <;> simp [holdsNary, Connective.combine, Connective.unit]

theorem holds_nonzero (u : Term) :
    (nonzero u).holds ops m = (u.eval ops m.number != 0) := by
  have compared : (equals u (.const 0)).holds ops m = true ↔ u.eval ops m.number = 0 :=
    holds_equals u (.const 0)
  rw [nonzero, holds_negate, bne, Bool.eq_iff_iff]
  simp [← compared]

theorem within_ofComparison {c : Comparison} {a b : Term} (left : a.Within L) (right : b.Within L) :
    (ofComparison c a b).Within L := by
  cases c with
  | eq => exact within_compare left right
  | ne => exact within_negate (within_compare left right)
  | lt => exact within_compare left right
  | le => exact within_compare left right
  | gt => exact within_compare right left
  | ge => exact within_compare right left

theorem within_pair {c : Connective} {f g : Formula} (left : f.Within L) (right : g.Within L) :
    (join c [f, g]).Within L := within_join (by simpa using ⟨left, right⟩)

end Formula

namespace Expr

variable {e : Expr} {f : Formula}

theorem of_condition?_compare {c : Comparison} {a b : Expr}
    (found : (Expr.compare c a b).condition? ssa = some f) :
    ∃ u w, a.term? ssa = some u ∧ b.term? ssa = some w ∧ f = .ofComparison c u w := by
  simp only [condition?] at found
  split at found
  · rename_i u w knownA knownB
    exact ⟨u, w, knownA, knownB, (Option.some.inj found).symm⟩
  · cases found

theorem of_condition?_logic {c : Connective} {a b : Expr}
    (found : (Expr.logic c a b).condition? ssa = some f) :
    ∃ g h, a.condition? ssa = some g ∧ b.condition? ssa = some h ∧ f = .ofLogic c g h := by
  simp only [condition?] at found
  split at found
  · rename_i g h knownA knownB
    exact ⟨g, h, knownA, knownB, (Option.some.inj found).symm⟩
  · cases found

theorem condition?_holds (reads : m.At ssa s) (value : e.Evaluates (.unbounded ops) s v)
    (found : e.condition? ssa = some f) : f.holds ops m = (v != 0) := by
  have ofTerm {e : Expr} {v : Int} {f : Formula} (value : e.Evaluates (.unbounded ops) s v)
      (found : (e.term? ssa).map Formula.nonzero = some f) : f.holds ops m = (v != 0) := by
    obtain ⟨u, known, rfl⟩ := Option.map_eq_some_iff.mp found
    rw [Formula.holds_nonzero, term?_eval reads value known]
  induction value generalizing f with
  | var x => exact ofTerm (.var x) found
  | const c => exact ofTerm (.const c) found
  | neg operand result => exact ofTerm (.neg operand result) found
  | bitNot operand => exact ofTerm (.bitNot operand) found
  | arith left right result => exact ofTerm (.arith left right result) found
  | nondet => cases found
  | deref => cases found
  | not operand ih =>
    obtain ⟨g, known, rfl⟩ := Option.map_eq_some_iff.mp found
    rw [Formula.holds_negate, ih known, bit_ne_zero]
    simp [bne]
  | compare left right =>
    obtain ⟨u, w, knownA, knownB, rfl⟩ := of_condition?_compare found
    rw [Formula.holds_ofComparison, term?_eval reads left knownA, term?_eval reads right knownB,
      bit_ne_zero]
  | @logic c a b x y left right ihLeft ihRight =>
    obtain ⟨g, h, knownA, knownB, rfl⟩ := of_condition?_logic found
    rw [Formula.holds_ofLogic, ihLeft knownA, ihRight knownB, bit_ne_zero]
    cases c with
    | and => cases x != 0 <;> rfl
    | or => cases x != 0 <;> rfl
  | @decided c a b x left decides ihLeft =>
    obtain ⟨g, h, knownA, knownB, rfl⟩ := of_condition?_logic found
    rw [Formula.holds_ofLogic, ihLeft knownA, decides, bit_ne_zero]
    cases c <;> rfl

theorem condition?_within (within : e.Within L) (bits : ∀ b, L.number (bit b))
    (found : e.condition? ssa = some f) : f.Within (L.upTo ssa) := by
  have zero : Term.Within (L.upTo ssa) (.const 0) := bits false
  have ofTerm {e : Expr} {f : Formula} (within : e.Within L)
      (found : (e.term? ssa).map Formula.nonzero = some f) : f.Within (L.upTo ssa) := by
    obtain ⟨u, known, rfl⟩ := Option.map_eq_some_iff.mp found
    exact Formula.within_negate (Formula.within_compare (term?_within within known) zero)
  induction e generalizing f with
  | compare c a b =>
    obtain ⟨u, w, knownA, knownB, rfl⟩ := of_condition?_compare found
    exact Formula.within_ofComparison (term?_within within.1 knownA) (term?_within within.2 knownB)
  | logic c a b ihA ihB =>
    obtain ⟨g, h, knownA, knownB, rfl⟩ := of_condition?_logic found
    exact Formula.within_pair (ihA within.1 knownA) (ihB within.2 knownB)
  | not a ih =>
    obtain ⟨g, known, rfl⟩ := Option.map_eq_some_iff.mp found
    exact Formula.within_negate (ih within known)
  | var x => exact ofTerm within found
  | const c => exact ofTerm within found
  | nondet => cases found
  | deref a => cases found
  | neg a => exact ofTerm within found
  | bitNot a => exact ofTerm within found
  | arith op a b => exact ofTerm within found

theorem condition?_evaluates (reads : m.At ssa s) (found : e.condition? ssa = some f) :
    ∃ v, e.Evaluates (.unbounded ops) s v ∧ (v != 0) = f.holds ops m := by
  have ofTerm {e : Expr} {f : Formula} (found : (e.term? ssa).map Formula.nonzero = some f) :
      ∃ v, e.Evaluates (.unbounded ops) s v ∧ (v != 0) = f.holds ops m := by
    obtain ⟨u, known, rfl⟩ := Option.map_eq_some_iff.mp found
    exact ⟨_, term?_evaluates reads known, (Formula.holds_nonzero u).symm⟩
  induction e generalizing f with
  | compare c a b =>
    obtain ⟨u, w, knownA, knownB, rfl⟩ := of_condition?_compare found
    refine ⟨_, .compare (term?_evaluates reads knownA) (term?_evaluates reads knownB), ?_⟩
    rw [bit_ne_zero, Formula.holds_ofComparison]
  | logic c a b ihA ihB =>
    obtain ⟨g, h, knownA, knownB, rfl⟩ := of_condition?_logic found
    obtain ⟨x, left, truthA⟩ := ihA knownA
    obtain ⟨y, right, truthB⟩ := ihB knownB
    refine ⟨_, .logic left right, ?_⟩
    rw [bit_ne_zero, Formula.holds_ofLogic, ← truthA, ← truthB]
    cases c <;> cases x != 0 <;> rfl
  | not a ih =>
    obtain ⟨g, known, rfl⟩ := Option.map_eq_some_iff.mp found
    obtain ⟨x, operand, truth⟩ := ih known
    refine ⟨_, .not operand, ?_⟩
    rw [bit_ne_zero, Formula.holds_negate, ← truth]
    simp [bne]
  | nondet => cases found
  | deref a => cases found
  | _ => exact ofTerm found

theorem Expressible.exists_condition (said : e.Expressible) (ssa : SsaMap) :
    ∃ f, e.condition? ssa = some f := by
  have ofTerm {e : Expr} (said : e.Arithmetic) :
      ∃ f, (e.term? ssa).map Formula.nonzero = some f := by
    obtain ⟨u, known⟩ := said.exists_term ssa
    exact ⟨_, by rw [known]; rfl⟩
  induction e with
  | compare c a b =>
    obtain ⟨u, knownA⟩ := said.1.exists_term ssa
    obtain ⟨w, knownB⟩ := said.2.exists_term ssa
    exact ⟨_, by rw [condition?, knownA, knownB]⟩
  | logic c a b ihA ihB =>
    obtain ⟨f, knownA⟩ := ihA said.1
    obtain ⟨g, knownB⟩ := ihB said.2
    exact ⟨_, by rw [condition?, knownA, knownB]⟩
  | not a ih =>
    obtain ⟨f, known⟩ := ih said
    exact ⟨_, by rw [condition?, known]; rfl⟩
  | nondet => exact said.elim
  | deref a => exact said.elim
  | _ => exact ofTerm said

end Expr

namespace Meaning

/-- The number that an expression with this meaning is worth. -/
def value (ops : Operators) (m : Assignment) : Meaning → Int
  | .term u => u.eval ops m.number
  | .condition f => bit (f.holds ops m)

def Within (L : Vocabulary) : Meaning → Prop
  | .term u => u.Within L
  | .condition f => f.Within L

theorem holds_equation (target : Term) (μ : Meaning) : (μ.equation target).holds ops m = true ↔
    target.eval ops m.number = μ.value ops m := by
  cases μ with
  | term u => exact Formula.holds_equals target u
  | condition f =>
    have join (c : Connective) (fs : List Formula) :
        (Formula.join c fs).holds ops m = Formula.holdsNary ops m c fs := Formula.holds_join ops m c fs
    have one := @Formula.holds_equals ops m target (.const 1)
    have zero := @Formula.holds_equals ops m target (.const 0)
    cases known : f.holds ops m <;>
      simpa [equation, value, Formula.disj, Formula.conj, join, Formula.holdsNary,
        Connective.combine, Connective.unit, bit, known]

theorem within_equation {target : Term} {μ : Meaning} (left : target.Within L)
    (right : μ.Within L) (one : L.number 1) (zero : L.number 0) :
    (μ.equation target).Within L := by
  cases μ with
  | term u => exact Formula.within_compare left right
  | condition f =>
    exact Formula.within_pair (Formula.within_pair right (Formula.within_compare left one))
      (Formula.within_pair (Formula.within_negate right) (Formula.within_compare left zero))

theorem Within.mono {μ : Meaning} (within : μ.Within L') (more : L.Includes L') : μ.Within L := by
  cases μ with
  | term u => exact Term.Within.mono within more
  | condition f => exact Formula.Within.mono within more

theorem value_congr {μ : Meaning} (within : μ.Within (L.upTo ssa)) (prolongs : m.Prolongs ssa m') :
    μ.value ops m = μ.value ops m' := by
  cases μ with
  | term u => exact Term.eval_congr within prolongs.agrees
  | condition f => exact congrArg bit (prolongs.holds within)

end Meaning

namespace Expr

variable {e : Expr} {μ : Meaning}

theorem meaning?_value (reads : m.At ssa s) (value : e.Evaluates (.unbounded ops) s v)
    (found : e.meaning? ssa = some μ) : μ.value ops m = v := by
  have ofTerm (found : (e.term? ssa).map Meaning.term = some μ) : μ.value ops m = v := by
    obtain ⟨u, known, rfl⟩ := Option.map_eq_some_iff.mp found
    exact term?_eval reads value known
  have ofCondition {b : Bool} (known : v = bit b)
      (found : (e.condition? ssa).map Meaning.condition = some μ) : μ.value ops m = v := by
    obtain ⟨f, condition, rfl⟩ := Option.map_eq_some_iff.mp found
    rw [Meaning.value, condition?_holds reads value condition, known, bit_ne_zero]
  cases value with
  | compare => exact ofCondition rfl found
  | logic => exact ofCondition rfl found
  | decided => exact ofCondition rfl found
  | not => exact ofCondition rfl found
  | _ => exact ofTerm found

theorem meaning?_within (within : e.Within L) (bits : ∀ b, L.number (bit b))
    (found : e.meaning? ssa = some μ) : μ.Within (L.upTo ssa) := by
  have ofTerm (found : (e.term? ssa).map Meaning.term = some μ) : μ.Within (L.upTo ssa) := by
    obtain ⟨u, known, rfl⟩ := Option.map_eq_some_iff.mp found
    exact term?_within within known
  have ofCondition (found : (e.condition? ssa).map Meaning.condition = some μ) :
      μ.Within (L.upTo ssa) := by
    obtain ⟨f, condition, rfl⟩ := Option.map_eq_some_iff.mp found
    exact condition?_within within bits condition
  cases e with
  | compare => exact ofCondition found
  | logic => exact ofCondition found
  | not => exact ofCondition found
  | _ => exact ofTerm found

theorem meaning?_evaluates (reads : m.At ssa s) (found : e.meaning? ssa = some μ) :
    e.Evaluates (.unbounded ops) s (μ.value ops m) := by
  have ofTerm (found : (e.term? ssa).map Meaning.term = some μ) :
      e.Evaluates (.unbounded ops) s (μ.value ops m) := by
    obtain ⟨u, known, rfl⟩ := Option.map_eq_some_iff.mp found
    exact term?_evaluates reads known
  -- A condition has no values but 0 and 1.
  have ofCondition (truth : ∀ v, e.Evaluates (.unbounded ops) s v → v = bit (v != 0))
      (found : (e.condition? ssa).map Meaning.condition = some μ) :
      e.Evaluates (.unbounded ops) s (μ.value ops m) := by
    obtain ⟨f, condition, rfl⟩ := Option.map_eq_some_iff.mp found
    obtain ⟨v, value, holds⟩ := condition?_evaluates reads condition
    rw [Meaning.value, ← holds, ← truth v value]
    exact value
  cases e with
  | compare => exact ofCondition (fun v value => by cases value; simp) found
  | logic => exact ofCondition (fun v value => by cases value <;> simp) found
  | not => exact ofCondition (fun v value => by cases value; simp) found
  | _ => exact ofTerm found

theorem Expressible.exists_meaning (said : e.Expressible) (ssa : SsaMap) :
    ∃ μ, e.meaning? ssa = some μ := by
  have ofTerm (said : e.Arithmetic) : ∃ μ, (e.term? ssa).map Meaning.term = some μ := by
    obtain ⟨u, known⟩ := said.exists_term ssa
    exact ⟨_, by rw [known]; rfl⟩
  have ofCondition (said : e.Expressible) :
      ∃ μ, (e.condition? ssa).map Meaning.condition = some μ := by
    obtain ⟨f, known⟩ := said.exists_condition ssa
    exact ⟨_, by rw [known]; rfl⟩
  cases e with
  | compare => exact ofCondition said
  | logic => exact ofCondition said
  | not => exact ofCondition said
  | nondet => exact said.elim
  | deref => exact said.elim
  | _ => exact ofTerm said

end Expr

end ProgramAnalysis
