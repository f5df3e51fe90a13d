import ProgramAnalysis.Analysis.Explicit.Transfer
import ProgramAnalysis.Proofs.Linear.Linearize
import ProgramAnalysis.Proofs.Numeric.Machine
import ProgramAnalysis.Proofs.PathFormula.Expressions

/-! Constant expressions are computed twice: with 64-bit numbers where values are known, and with 128-bit
numbers where their terms become linear forms. Where the first has a value, the second has the same one,
unless a left shift has dropped digits of a 64-bit number. -/
namespace ProgramAnalysis

open Machine (bound64 bound128 fits)

theorem ExplicitState.of_eval_arith {st : ExplicitState} {op : ArithOp} {a b : Expr} {v : Int}
    (value : st.eval (.arith op a b) = some v) : ∃ x y, st.eval a = some x ∧ st.eval b = some y ∧
      Machine.compute? bound64 op x y = some v := by
  simp only [eval] at value
  split at value
  · rename_i x y left right
    exact ⟨x, y, left, right, value⟩
  · cases value

namespace Expr

variable {st : ExplicitState} {ssa : SsaMap} {known : List Term} {e : Expr} {t : Term} {v : Int}

/-- An expression of 64-bit constants. -/
def Constant : Expr → Prop
  | .const c => fits bound64 c = true
  | .neg a | .bitNot a => a.Constant
  | .arith _ a b => a.Constant ∧ b.Constant
  | .var _ | .nondet | .deref _ | .not _ | .compare .. | .logic .. => False

/-- What holds of a constant expression and of all expressions in it. -/
def Everywhere (good : Expr → Prop) : Expr → Prop
  | .neg a => good (.neg a) ∧ a.Everywhere good
  | .bitNot a => good (.bitNot a) ∧ a.Everywhere good
  | .arith op a b => good (.arith op a b) ∧ a.Everywhere good ∧ b.Everywhere good
  | e => good e

/-- If the expression has a value and the form of its term is a constant, they are the same. -/
def FoldsAlike (st : ExplicitState) (ssa : SsaMap) (known : List Term) (e : Expr) : Prop :=
  ∀ v t form known' c, st.eval e = some v → e.term? ssa = some t →
    t.linearize.run known = .ok (form, known') → form.const? = some c → c = v

def ShiftFits (st : ExplicitState) (e : Expr) : Prop :=
  ∀ a b x y, e = .arith .shl a b → st.eval a = some x → st.eval b = some y → 0 ≤ y → y ≤ 63 →
    fits bound64 (x * 2 ^ y.toNat) = true

theorem Constant.arithmetic (constant : e.Constant) : e.Arithmetic := by
  induction e with
  | const => trivial
  | neg a ih | bitNot a ih => exact ih constant
  | arith op a b ihA ihB => exact ⟨ihA constant.1, ihB constant.2⟩
  | _ => exact constant.elim

theorem fits_eval (constant : e.Constant) (value : st.eval e = some v) : fits bound64 v = true := by
  induction e generalizing v with
  | const c =>
    cases value
    exact constant
  | neg a ih =>
    obtain ⟨x, -, checked⟩ := Option.bind_eq_some_iff.mp value
    obtain ⟨rfl, inside⟩ := Machine.fits_of_checked checked
    exact inside
  | bitNot a ih =>
    obtain ⟨x, operand, rfl⟩ := Option.map_eq_some_iff.mp value
    have inside := Machine.fits_iff.mp (ih constant operand)
    rw [Machine.fits_iff, Bitwise.not]
    omega
  | arith op a b ihA ihB =>
    obtain ⟨x, y, left, right, computed⟩ := ExplicitState.of_eval_arith value
    exact Machine.fits_of_compute? (k := 63) rfl (ihA constant.1 left) (ihB constant.2 right) computed
  | _ => exact constant.elim

theorem Everywhere.here {good : Expr → Prop} (everywhere : e.Everywhere good) : good e := by
  cases e with
  | neg | bitNot | arith => exact everywhere.1
  | _ => exact everywhere

theorem linearize_eval (constant : e.Constant) (fit : e.Everywhere (ShiftFits st))
    (value : st.eval e = some v) (found : e.term? ssa = some t) :
    t.linearize.run known = .ok (.ofConst v, known) := by
  have inside := fits_eval constant value
  -- The operands are folded to their values first, so the operation is one on constants.
  induction e generalizing v t with
  | const c =>
    cases value
    cases found
    rfl
  | neg a ih =>
    obtain ⟨x, operand, checked⟩ := Option.bind_eq_some_iff.mp value
    obtain ⟨u, term, rfl⟩ := Option.map_eq_some_iff.mp found
    obtain ⟨rfl, -⟩ := Machine.fits_of_checked checked
    have folded := ih constant fit.2 operand term (fits_eval (e := a) constant operand)
    exact Term.linearize_neg_constant folded (Machine.fits_wider inside)
  | bitNot a ih =>
    obtain ⟨x, operand, rfl⟩ := Option.map_eq_some_iff.mp value
    obtain ⟨u, term, rfl⟩ := Option.map_eq_some_iff.mp found
    have insideA := fits_eval (e := a) constant operand
    have folded := ih constant fit.2 operand term insideA
    exact Term.linearize_bitNot_constant folded (Machine.fits_neg insideA) (Machine.fits_wider inside)
  | arith op a b ihA ihB =>
    obtain ⟨x, y, valueA, valueB, computed⟩ := ExplicitState.of_eval_arith value
    obtain ⟨u, w, termA, termB, rfl⟩ := of_term?_arith found
    have insideA := fits_eval constant.1 valueA
    have insideB := fits_eval constant.2 valueB
    have foldedA := ihA constant.1 fit.2.1 valueA termA insideA
    have foldedB := ihB constant.2 fit.2.2 valueB termB insideB
    refine Term.linearize_binary_constant foldedA foldedB (Machine.compute?_wider computed ?_)
      (Machine.fits_wider insideB) (Machine.fits_neg insideB)
    rintro rfl
    exact fit.1 a b x y rfl valueA valueB
  | _ => exact constant.elim

/-- A left shift of values is folded to the exact result, since that is a 128-bit number. -/
theorem shiftFits_of_foldsAlike {op : ArithOp} {a b : Expr} (constant : (arith op a b).Constant)
    (fitA : a.Everywhere (ShiftFits st)) (fitB : b.Everywhere (ShiftFits st))
    (alike : (arith op a b).FoldsAlike st ssa known) : (arith op a b).ShiftFits st := by
  rintro a b x y ⟨⟩ valueA valueB low high
  obtain ⟨u, termA⟩ := constant.1.arithmetic.exists_term ssa
  obtain ⟨w, termB⟩ := constant.2.arithmetic.exists_term ssa
  have inside := fits_eval constant.1 valueA
  have exact : Machine.compute? bound128 .shl x y = some (x * 2 ^ y.toNat) := by
    rw [Machine.compute?, if_pos ⟨low, by omega⟩, Int.shiftLeft_eq,
      Machine.bmod_of_fits (Machine.fits_shift inside (by omega))]
  have foldedA : u.linearize.run known = .ok (.ofConst x, known) :=
    linearize_eval constant.1 fitA valueA termA
  have foldedB : w.linearize.run known = .ok (.ofConst y, known) :=
    linearize_eval constant.2 fitB valueB termB
  have folded := Term.linearize_fold foldedA foldedB rfl rfl exact (by decide)
  have value : st.eval (.arith .shl a b) = some ((x * 2 ^ y.toNat).bmod (2 * bound64.toNat)) := by
    rw [ExplicitState.eval, valueA, valueB]
    simp only [Machine.compute?, if_pos (show 0 ≤ y ∧ y < 64 by omega), Int.shiftLeft_eq]
  have same := alike _ _ _ _ (x * 2 ^ y.toNat) value (by rw [term?, termA, termB]) folded rfl
  exact same ▸ Machine.fits_bmod (by decide) _

/-- Known values and folded constants agree throughout an expression of constants just if no left shift
in it drops digits of a 64-bit number. -/
theorem foldsAlike_iff (constant : e.Constant) (st : ExplicitState) (ssa : SsaMap)
    (known : List Term) :
    e.Everywhere (FoldsAlike st ssa known) ↔ e.Everywhere (ShiftFits st) := by
  have alike {e : Expr} (constant : e.Constant) (fit : e.Everywhere (ShiftFits st)) :
      e.FoldsAlike st ssa known := by
    intro v t form known' c value found run folded
    cases (linearize_eval constant fit value found).symm.trans run
    exact (Option.some.inj folded).symm
  constructor
  · intro everywhere
    induction e with
    | const c => rintro a b x y ⟨⟩
    | neg a ih | bitNot a ih => exact ⟨by rintro a b x y ⟨⟩, ih constant everywhere.2⟩
    | arith op a b ihA ihB =>
      have fitA := ihA constant.1 everywhere.2.1
      have fitB := ihB constant.2 everywhere.2.2
      exact ⟨shiftFits_of_foldsAlike constant fitA fitB everywhere.1, fitA, fitB⟩
    | _ => exact constant.elim
  · intro everywhere
    induction e with
    | const c => exact alike constant everywhere
    | neg a ih | bitNot a ih => exact ⟨alike constant everywhere, ih constant everywhere.2⟩
    | arith op a b ihA ihB =>
      exact ⟨alike constant everywhere, ihA constant.1 everywhere.2.1, ihB constant.2 everywhere.2.2⟩
    | _ => exact constant.elim

def topShift (n : Int) : Expr := .arith .shl (.const n) (.const 63)

/-- In `-1 << 63` no digit is dropped. -/
theorem foldsAlike_topShift : (topShift (-1)).Constant ∧
    ExplicitState.top.eval (topShift (-1)) = some (-2 ^ 63) ∧
    (topShift (-1)).FoldsAlike .top .empty [] := by
  have constant : (topShift (-1)).Constant := ⟨rfl, rfl⟩
  have fit : (topShift (-1)).Everywhere (ShiftFits .top) := by
    refine ⟨?_, by rintro a b x y ⟨⟩, by rintro a b x y ⟨⟩⟩
    rintro a b x y ⟨⟩ ⟨⟩ ⟨⟩ - -
    decide
  exact ⟨constant, rfl, ((foldsAlike_iff constant .top .empty []).mpr fit).here⟩

/-- In `1 << 63` the value loses its digit, and the folded constant keeps it. -/
theorem topShift_not_foldsAlike : (topShift 1).Constant ∧
    ExplicitState.top.eval (topShift 1) = some (-2 ^ 63) ∧
    (∀ t, (topShift 1).term? .empty = some t → t.linearize.run [] = .ok (.ofConst (2 ^ 63), [])) ∧
    ¬ (topShift 1).FoldsAlike .top .empty [] := by
  have folded : ∀ t, (topShift 1).term? .empty = some t →
      t.linearize.run [] = .ok (.ofConst (2 ^ 63), []) := by
    rintro t ⟨⟩
    rfl
  refine ⟨⟨rfl, rfl⟩, rfl, folded, fun alike => ?_⟩
  have same := alike (-2 ^ 63) _ _ [] (2 ^ 63) rfl rfl (folded _ rfl) rfl
  exact absurd same (by decide)

end Expr

end ProgramAnalysis
