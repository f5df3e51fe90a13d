import ProgramAnalysis.Proofs.Formula.Vocabulary
import ProgramAnalysis.Proofs.Linear.Linearize
import ProgramAnalysis.Proofs.Numeric.Machine

/-! Linear constraints hold where the literals hold that they come from. The constants of terms are 64-bit
numbers, so operations on constants have 128-bit operands, and the operators have to agree with what is
computed for these only. -/
namespace ProgramAnalysis

open Checked (Ensures)
open Machine (bound128 fits)

/-- What the solver relies on: the linear operators are the mathematical ones, and the others agree with
what is computed on wide numbers wherever that has a value. -/
structure Operators.Integral (ops : Operators) : Prop where
  neg : ∀ x, ops.neg x = -x
  bitNot : ∀ x, ops.bitNot x = Bitwise.not x
  add : ∀ x y, ops.binary .add x y = x + y
  sub : ∀ x y, ops.binary .sub x y = x - y
  mul : ∀ x y, ops.binary .mul x y = x * y
  folds : ∀ op x y c, fits bound128 x = true → fits bound128 y = true →
    Machine.compute? bound128 op x y = some c → ops.binary op x y = c

theorem Operators.Integral.linear {ops : Operators} (integral : ops.Integral) : ops.Linear :=
  ⟨integral.neg, integral.bitNot, integral.add, integral.sub, integral.mul⟩

/-- Operators that are zero wherever nothing else is asked of them. -/
def Operators.standard : Operators where
  neg x := -x
  bitNot := Bitwise.not
  binary
    | .add, x, y => x + y
    | .sub, x, y => x - y
    | .mul, x, y => x * y
    | op, x, y => (Machine.compute? bound128 op x y).getD 0

theorem Operators.integral_standard : Operators.standard.Integral := by
  refine ⟨fun _ => rfl, fun _ => rfl, fun _ _ => rfl, fun _ _ => rfl, fun _ _ => rfl, ?_⟩
  intro op x y c _ _ found
  cases op with
  | add => exact (Machine.fits_of_checked found).1.symm
  | sub => exact (Machine.fits_of_checked found).1.symm
  | mul => exact (Machine.fits_of_checked found).1.symm
  | _ => simp [standard, found]

variable {ops : Operators} {known known' later : List Term} {e : LinearForm} {t a b : Term}

/-- A computation that meets opaque terms and ends with something that is right from then on. -/
def Linearizes {α : Type} (act : LinearizeM α) (known : List Term)
    (good : α → List Term → Prop) : Prop :=
  Ensures act known (fun _ => True) fun a known' => known <+: known' ∧ good a known'

namespace LinearizeM

theorem orOverflow_ensures {α : Type} {e : Option LinearForm} {f : LinearForm → LinearizeM α}
    {good : α → List Term → Prop}
    (step : ∀ e', e = some e' → Ensures (f e') known (fun _ => True) good) :
    Ensures (orOverflow e >>= f) known (fun _ => True) good := by
  cases e with
  | none => trivial
  | some e => exact step e rfl

end LinearizeM

theorem LinearForm.WideConstant.of_const? {c : Int} (wide : e.WideConstant)
    (constant : e.const? = some c) : fits bound128 c = true :=
  eq_of_const? constant ▸ wide

namespace Term

/-- The constant of a form is a 128-bit number, also where it comes from an operation on constants. -/
theorem linearize_wide (words : t.Within .words)
    (run : t.linearize.run known = .ok (e, known')) : e.WideConstant := by
  induction t generalizing known known' e with
  | const c =>
    cases run
    exact Machine.fits_wider words
  | var x =>
    obtain ⟨x, rfl, -⟩ := LinearizeM.of_opaqueTerm run
    rfl
  | neg a ih =>
    obtain ⟨ea, -, scaled⟩ := of_linearize_neg run
    exact (LinearForm.of_addScaled? scaled).2
  | bitNot a ih =>
    obtain ⟨ea, m, -, -, added⟩ := of_linearize_bitNot run
    exact (LinearForm.of_addConst? added).2
  | binary op a b ihA ihB =>
    obtain ⟨ea, known₁, eb, known₂, left, right, combines⟩ := of_linearize_binary run
    cases combines with
    | add _ added | sub _ added | mulLeft _ _ added | mulRight _ _ added =>
      exact (LinearForm.of_addScaled? added).2
    | fold constantA constantB computed =>
      have wideA := ihA words.1 left
      have wideB := ihB words.2 right
      exact Machine.fits_of_compute? (k := 127) rfl (wideA.of_const? constantA)
        (wideB.of_const? constantB) computed
    | asOpaque run =>
      obtain ⟨x, rfl, -⟩ := LinearizeM.of_opaqueTerm run
      rfl

theorem along_of_within {L : Vocabulary} {good : List Term → Term → Prop}
    (all : ∀ known t, t.Within L → good known t) (within : t.Within L) (known : List Term) :
    t.Along good known := by
  induction t generalizing known with
  | const | var => exact all _ _ within
  | neg a ih | bitNot a ih => exact ⟨all _ _ within, ih within known⟩
  | binary op a b ihA ihB =>
    exact ⟨all _ _ within, ihA within.1 known, fun _ known' _ => ihB within.2 known'⟩

theorem folds_of_integral (integral : ops.Integral) (words : t.Within .words) :
    t.Folds ops known := by
  rintro op x y c ⟨a, b, ea, known₁, eb, known₂, rfl, left, right, constantA, constantB⟩ computed
  have wideA := linearize_wide words.1 left
  have wideB := linearize_wide words.2 right
  exact integral.folds op x y c (wideA.of_const? constantA) (wideB.of_const? constantB) computed

theorem linearize_ensures (integral : ops.Integral) {known : List Term} (t : Term)
    (words : t.Within .words) :
    Linearizes t.linearize known fun e known' => e.Represents ops known' t := by
  refine Checked.ensures_of_forall (fun e known' run => ?_) fun _ _ => trivial
  have along : t.Along (Folds ops) known :=
    along_of_within (fun _ _ words => folds_of_integral integral words) words known
  exact ⟨(linearize_grows run).1, linearize_represents integral.linear along run⟩

end Term

namespace Constraint

open LinearizeM

def Holds (values : Nat → Int) : Constraint → Prop
  | .atMostZero e => e.eval values ≤ 0
  | .zero e => e.eval values = 0
  | .nonzero e => e.eval values ≠ 0

def form : Constraint → LinearForm
  | .atMostZero e => e
  | .zero e => e
  | .nonzero e => e

/-- The constraint is what the literal requires whenever the opaque terms met so far are known. -/
def Follows (ops : Operators) (known : List Term) (r : Relation) (a b : Term) (truth : Bool)
    (c : Constraint) : Prop :=
  c.form.Increasing ∧ ∀ later, known <+: later → ∀ values,
    r.holds (a.eval ops values) (b.eval ops values) = truth →
      c.Holds (opaqueValues ops values later)

theorem ofComparison_ensures (integral : ops.Integral) (r : Relation) {a b : Term}
    (wordsA : a.Within .words) (wordsB : b.Within .words) (truth : Bool) :
    Linearizes (ofComparison r a b truth) known fun c known' =>
      c.Follows ops known' r a b truth := by
  unfold Linearizes ofComparison
  rw [Checked.ensures_bind]
  refine (a.linearize_ensures integral wordsA).mono fun ea known₁ ⟨first, left⟩ => ?_
  rw [Checked.ensures_bind]
  refine (b.linearize_ensures integral wordsB).mono fun eb known₂ ⟨second, right⟩ => ?_
  replace left := left.mono second
  have more := first.trans second
  refine orOverflow_ensures fun e sub => ?_
  have increasing := left.increasing.addScaled? right.increasing sub
  have value : ∀ later, known₂ <+: later → ∀ values, e.eval (opaqueValues ops values later) =
      a.eval ops values - b.eval ops values := by
    intro later grown values
    rw [(LinearForm.of_addScaled? sub).1, left.eval later grown, right.eval later grown]
    omega
  split
  · refine ⟨more, increasing, fun later grown values holds => ?_⟩
    simp only [Relation.holds, decide_eq_true_eq] at holds
    simp only [Holds, value later grown]
    omega
  · refine orOverflow_ensures fun e' scaled => orOverflow_ensures fun e'' added =>
      ⟨more, (increasing.scale? scaled).addConst? added, fun later grown values holds => ?_⟩
    simp only [Relation.holds, decide_eq_false_iff_not] at holds
    simp only [Holds, (LinearForm.of_addConst? added).1, LinearForm.eval_scale? scaled,
      value later grown]
    omega
  · refine orOverflow_ensures fun e' added =>
      ⟨more, increasing.addConst? added, fun later grown values holds => ?_⟩
    simp only [Relation.holds, decide_eq_true_eq] at holds
    simp only [Holds, (LinearForm.of_addConst? added).1, value later grown]
    omega
  · refine orOverflow_ensures fun e' scaled =>
      ⟨more, increasing.scale? scaled, fun later grown values holds => ?_⟩
    simp only [Relation.holds, decide_eq_false_iff_not] at holds
    simp only [Holds, LinearForm.eval_scale? scaled, value later grown]
    omega
  · refine ⟨more, increasing, fun later grown values holds => ?_⟩
    simp only [Relation.holds, decide_eq_true_eq] at holds
    simp only [Holds, value later grown]
    omega
  · refine ⟨more, increasing, fun later grown values holds => ?_⟩
    simp only [Relation.holds, decide_eq_false_iff_not] at holds
    simp only [Holds, value later grown]
    omega

def LiteralsHold (ops : Operators) (m : Assignment) (ls : List (Formula × Bool)) : Prop :=
  ∀ l ∈ ls, l.1.holds ops m = l.2

theorem ofLiterals_ensures (integral : ops.Integral) {known : List Term}
    (ls : List (Formula × Bool)) (words : ∀ l ∈ ls, l.1.Within .words) :
    Linearizes (ofLiterals ls) known fun cs known' =>
      (∀ c ∈ cs, c.form.Increasing) ∧ ∀ later, known' <+: later → ∀ m, LiteralsHold ops m ls →
        ∀ c ∈ cs, c.Holds (opaqueValues ops m.number later) := by
  fun_induction ofLiterals ls generalizing known with
  | case1 => exact ⟨List.prefix_refl _, by simp, by simp⟩
  | case2 r a b truth ls ih =>
    obtain ⟨here, rest⟩ := List.forall_mem_cons.mp words
    unfold Linearizes
    rw [Checked.ensures_bind]
    refine (ofComparison_ensures integral r here.1 here.2 truth).mono
      fun c known₁ ⟨first, increasing, follows⟩ => ?_
    rw [Checked.ensures_bind]
    refine (ih rest).mono fun cs known₂ ⟨second, others, required⟩ => ?_
    refine ⟨first.trans second, List.forall_mem_cons.mpr ⟨increasing, others⟩, ?_⟩
    intro later grown m holds
    obtain ⟨now, others⟩ := List.forall_mem_cons.mp holds
    exact List.forall_mem_cons.mpr
      ⟨follows later (second.trans grown) m.number now, required later grown m others⟩
  | case3 l ls other ih =>
    obtain ⟨-, rest⟩ := List.forall_mem_cons.mp words
    refine (ih rest).mono fun cs known₁ ⟨first, increasing, required⟩ => ?_
    refine ⟨first, increasing, fun later grown m holds => ?_⟩
    exact required later grown m (List.forall_mem_cons.mp holds).2

end Constraint

end ProgramAnalysis
