import ProgramAnalysis.Abstraction.Abstractor
import ProgramAnalysis.Formula.Atoms
import ProgramAnalysis.Proofs.Formula.Masks

/-! Side conditions of a formula are about all conjunctions and disjunctions of digits that occur in it,
however deep. They hold for the operations of two's complement, so a strengthened formula has the
models that the formula has; for other operations they force the bounds of all these terms. -/
namespace ProgramAnalysis

/-- A term is a part of itself, and the parts of its operands are its parts. -/
inductive Term.PartOf (t : Term) : Term → Prop
  | refl : t.PartOf t
  | neg {u : Term} (inside : t.PartOf u) : t.PartOf (.neg u)
  | bitNot {u : Term} (inside : t.PartOf u) : t.PartOf (.bitNot u)
  | left {op : ArithOp} {a b : Term} (inside : t.PartOf a) : t.PartOf (.binary op a b)
  | right {op : ArithOp} {a b : Term} (inside : t.PartOf b) : t.PartOf (.binary op a b)

/-- A term occurs in the formulas that have it in a side of an atom. -/
inductive Term.OccursIn (t : Term) : Formula → Prop
  | left {r : Relation} {a b : Term} (inside : t.PartOf a) : t.OccursIn (.atom r a b)
  | right {r : Relation} {a b : Term} (inside : t.PartOf b) : t.OccursIn (.atom r a b)
  | argument {f g : Formula} (mem : g ∈ f.arguments) (inside : t.OccursIn g) : t.OccursIn f

variable {ops : Operators} {m : Assignment} {f g : Formula} {fs : List Formula} {op : ArithOp}
variable {a b t u : Term}

namespace Term

theorem partOf_of_mem_masks (mem : t ∈ u.masks) : t.PartOf u := by
  induction u with
  | const c => cases mem
  | var x => cases mem
  | neg u ih => exact .neg (ih mem)
  | bitNot u ih => exact .bitNot (ih mem)
  | binary op a b iha ihb =>
    simp only [masks, List.mem_append] at mem
    rcases mem with (mem | mem) | mem
    · exact .left (iha mem)
    · exact .right (ihb mem)
    · split at mem
      · exact List.mem_singleton.mp mem ▸ .refl
      · cases mem

theorem mem_masks_of_partOf (mask : op = .bitAnd ∨ op = .bitOr) (inside : (binary op a b).PartOf u) :
    binary op a b ∈ u.masks := by
  induction inside with
  | refl => simp [masks, mask]
  | neg _ ih => exact ih
  | bitNot _ ih => exact ih
  | left _ ih => exact List.mem_append_left _ (List.mem_append_left _ ih)
  | right _ ih => exact List.mem_append_left _ (List.mem_append_right _ ih)

end Term

namespace Formula

theorem mem_masksAll : t ∈ masksAll fs ↔ ∃ g ∈ fs, t ∈ g.masks := by
  induction fs with
  | nil => simp [masksAll]
  | cons f fs ih => simp [masksAll, ih]

theorem masks_of_arguments (notAtom : f.isAtom = false) : f.masks = masksAll f.arguments := by
  cases f with
  | atom r a b => cases notAtom
  | _ => simp [masks, masksAll, arguments]

theorem occursIn_of_mem_masks (mem : t ∈ f.masks) : t.OccursIn f := by
  induction f using arguments_induction with
  | step f ih =>
    cases kind : f.isAtom with
    | true =>
      cases f with
      | atom r a b =>
        rcases List.mem_append.mp mem with mem | mem
        · exact .left (Term.partOf_of_mem_masks mem)
        · exact .right (Term.partOf_of_mem_masks mem)
      | _ => cases kind
    | false =>
      rw [masks_of_arguments kind, mem_masksAll] at mem
      obtain ⟨g, argument, inside⟩ := mem
      exact .argument argument (ih g argument inside)

theorem mem_masks_of_occursIn (mask : op = .bitAnd ∨ op = .bitOr)
    (occurs : (Term.binary op a b).OccursIn f) : Term.binary op a b ∈ f.masks := by
  induction occurs with
  | left inside => exact List.mem_append_left _ (Term.mem_masks_of_partOf mask inside)
  | right inside => exact List.mem_append_right _ (Term.mem_masks_of_partOf mask inside)
  | @argument f g mem _ ih =>
    have notAtom : f.isAtom = false := by
      cases f with
      | atom r a b => cases mem
      | _ => rfl
    rw [masks_of_arguments notAtom, mem_masksAll]
    exact ⟨g, mem, ih⟩

theorem holds_bitwiseAxioms_iff (f : Formula) : f.bitwiseAxioms.holds ops m = true ↔
    ∀ t : Term, t.OccursIn f → t.KeepsBounds ops m.number := by
  rw [holds_bitwiseAxioms]
  constructor
  · intro keeps t occurs
    cases t with
    | binary op a b =>
      cases op with
      | bitAnd => exact keeps _ (mem_masks_of_occursIn (.inl rfl) occurs)
      | bitOr => exact keeps _ (mem_masks_of_occursIn (.inr rfl) occurs)
      | _ => trivial
    | _ => trivial
  · exact fun keeps t mem => keeps t (occursIn_of_mem_masks mem)

end Formula

namespace Abstractor

theorem holds_strengthened (digits : ops.Digitwise) (o : FormulaOptions) (f : Formula)
    (m : Assignment) : (strengthened o f).holds ops m = f.holds ops m := by
  unfold strengthened
  split
  · rw [Bool.eq_iff_iff, Formula.holds_conj]
    simp [Formula.bitwiseAxioms_hold digits f m]
  · rfl

/-- Digitwise operations make the side conditions of a formula true, so adding them keeps its models.
Whatever the operations are, the side conditions are true exactly if all conjunctions and
disjunctions of digits in the formula keep their bounds. -/
theorem sideConditions_exact (f : Formula) :
    (∀ ops : Operators, ops.Digitwise → ∀ m, f.bitwiseAxioms.holds ops m = true ∧
      ∀ o, (strengthened o f).holds ops m = f.holds ops m) ∧
    ∀ ops m, f.bitwiseAxioms.holds ops m = true ↔
      ∀ t : Term, t.OccursIn f → t.KeepsBounds ops m.number :=
  ⟨fun _ digits m => ⟨Formula.bitwiseAxioms_hold digits f m, fun o => holds_strengthened digits o f m⟩,
    fun _ _ => Formula.holds_bitwiseAxioms_iff f⟩

def maskedTerm : Term := .binary .bitAnd (.symbolic "x") (.const 6)

def nestedMasks : Formula := .atom .eq (.binary .bitOr maskedTerm (.symbolic "y")) (.const 7)

def maskedValues : Assignment := ⟨fun x => if x.name = "x" then 5 else 3, fun _ => false⟩

def constantMasks : Operators := ⟨fun x => x, fun x => x, fun op _ _ => if op = .bitAnd then 2 else 9⟩

theorem sideConditions_exact_nested : Operators.standard.Digitwise ∧
    nestedMasks.bitwiseAxioms.holds .standard maskedValues = true ∧
    (strengthened { bitwiseAxioms := true } nestedMasks).holds .standard maskedValues =
      nestedMasks.holds .standard maskedValues ∧
    nestedMasks.bitwiseAxioms.holds constantMasks maskedValues = true ∧
    maskedTerm.OccursIn nestedMasks ∧ (0 : Int) ≤ 5 ∧ (0 : Int) ≤ 6 ∧
    0 ≤ maskedTerm.eval constantMasks maskedValues.number ∧
    maskedTerm.eval constantMasks maskedValues.number ≤ min 5 6 := by
  have digits := Operators.twosComplement_standard.digitwise
  obtain ⟨valid, bounds⟩ := sideConditions_exact nestedMasks
  obtain ⟨holds, same⟩ := valid _ digits maskedValues
  have other : nestedMasks.bitwiseAxioms.holds constantMasks maskedValues = true := by cbv
  have occurs : maskedTerm.OccursIn nestedMasks := .left (.left .refl)
  have left : (0 : Int) ≤ 5 := by decide
  have right : (0 : Int) ≤ 6 := by decide
  exact ⟨digits, holds, same _, other, occurs, left, right,
    (bounds constantMasks maskedValues).mp other maskedTerm occurs left right⟩

end Abstractor

end ProgramAnalysis
