import ProgramAnalysis.Formula.Masks
import ProgramAnalysis.Proofs.Linear.Constraint
import ProgramAnalysis.Proofs.PathFormula.Extend

/-! The side conditions of bit operations say that all conjunctions and disjunctions of digits in a formula
keep their bounds. The operations of two's complement keep them whatever the variables are, so adding the
conditions to a formula does not change its models. -/
namespace ProgramAnalysis

/-- Conjunction and disjunction of digits are those of two's complement on all integers. -/
structure Operators.TwosComplement (ops : Operators) : Prop extends ops.Integral where
  and : ∀ x y, ops.binary .bitAnd x y = Bitwise.and x y
  or : ∀ x y, ops.binary .bitOr x y = Bitwise.or x y

theorem Operators.twosComplement_standard : Operators.standard.TwosComplement :=
  ⟨integral_standard, fun _ _ => rfl, fun _ _ => rfl⟩

/-- Conjunction and disjunction of digits work on each digit of two's complement. The other operators
are any functions. -/
structure Operators.Digitwise (ops : Operators) : Prop where
  and : ∀ x y i, (ops.binary .bitAnd x y).testBit i = (x.testBit i && y.testBit i)
  or : ∀ x y i, (ops.binary .bitOr x y).testBit i = (x.testBit i || y.testBit i)

theorem Operators.TwosComplement.digitwise {ops : Operators} (exact : ops.TwosComplement) :
    ops.Digitwise :=
  ⟨fun x y i => by rw [exact.and, Bitwise.testBit_and],
    fun x y i => by rw [exact.or, Bitwise.testBit_or]⟩

theorem Operators.Digitwise.and_eq {ops : Operators} (digits : ops.Digitwise) (x y : Int) :
    ops.binary .bitAnd x y = Bitwise.and x y :=
  Bitwise.eq_of_testBit_eq fun i => by rw [digits.and, Bitwise.testBit_and]

theorem Operators.Digitwise.or_eq {ops : Operators} (digits : ops.Digitwise) (x y : Int) :
    ops.binary .bitOr x y = Bitwise.or x y :=
  Bitwise.eq_of_testBit_eq fun i => by rw [digits.or, Bitwise.testBit_or]

namespace Bitwise

variable {x y : Int}

theorem and_bounds (left : 0 ≤ x) (right : 0 ≤ y) :
    0 ≤ and x y ∧ and x y ≤ x ∧ and x y ≤ y := by
  obtain ⟨m, rfl⟩ := Int.eq_ofNat_of_zero_le left
  obtain ⟨n, rfl⟩ := Int.eq_ofNat_of_zero_le right
  exact ⟨Int.natCast_nonneg _, Int.ofNat_le.mpr Nat.and_le_left, Int.ofNat_le.mpr Nat.and_le_right⟩

theorem or_bounds (left : 0 ≤ x) (right : 0 ≤ y) : x ≤ or x y ∧ y ≤ or x y := by
  obtain ⟨m, rfl⟩ := Int.eq_ofNat_of_zero_le left
  obtain ⟨n, rfl⟩ := Int.eq_ofNat_of_zero_le right
  exact ⟨Int.ofNat_le.mpr Nat.left_le_or, Int.ofNat_le.mpr Nat.right_le_or⟩

end Bitwise

/-- The bounds of a conjunction or disjunction of digits for operands that are not negative. -/
def Term.KeepsBounds (ops : Operators) (values : TermVar → Int) : Term → Prop
  | .binary .bitAnd a b => 0 ≤ a.eval ops values → 0 ≤ b.eval ops values →
      0 ≤ (Term.binary .bitAnd a b).eval ops values ∧
        (Term.binary .bitAnd a b).eval ops values ≤ min (a.eval ops values) (b.eval ops values)
  | .binary .bitOr a b => 0 ≤ a.eval ops values → 0 ≤ b.eval ops values →
      max (a.eval ops values) (b.eval ops values) ≤ (Term.binary .bitOr a b).eval ops values
  | _ => True

theorem Operators.Digitwise.keepsBounds {ops : Operators} (digits : ops.Digitwise)
    (values : TermVar → Int) (t : Term) : t.KeepsBounds ops values := by
  cases t with
  | binary op a b =>
    cases op with
    | bitAnd =>
      intro left right
      rw [Term.eval, digits.and_eq, le_min_iff]
      exact Bitwise.and_bounds left right
    | bitOr =>
      intro left right
      rw [Term.eval, digits.or_eq, max_le_iff]
      exact Bitwise.or_bounds left right
    | _ => trivial
  | _ => trivial

namespace Formula

variable {ops : Operators} {m : Assignment} {L : Vocabulary} {f g : Formula} {t : Term}

theorem holds_atMost (a b : Term) :
    (atMost a b).holds ops m = true ↔ a.eval ops m.number ≤ b.eval ops m.number := by
  rw [atMost, holds_compare]
  exact decide_eq_true_iff

theorem holds_implication {a b : Term} {fs : List Formula} :
    (disj [(conj [atMost (.const 0) a, atMost (.const 0) b]).negate, conj fs]).holds ops m = true ↔
      (0 ≤ a.eval ops m.number → 0 ≤ b.eval ops m.number → ∀ f ∈ fs, f.holds ops m = true) := by
  have premise : (conj [atMost (.const 0) a, atMost (.const 0) b]).holds ops m = true ↔
      0 ≤ a.eval ops m.number ∧ 0 ≤ b.eval ops m.number := by
    rw [holds_conj]
    simp [holds_atMost, Term.eval]
  rw [holds_disj, ← and_imp, ← premise, ← holds_conj]
  simp [imp_iff_not_or]

theorem holds_maskAxiom? (found : maskAxiom? t = some g) :
    g.holds ops m = true ↔ t.KeepsBounds ops m.number := by
  cases t with
  | binary op a b =>
    cases op with
    | bitAnd =>
      cases found
      rw [holds_implication]
      simp [holds_atMost, Term.KeepsBounds, Term.eval]
    | bitOr =>
      cases found
      rw [holds_implication]
      simp [holds_atMost, Term.KeepsBounds]
    | _ => cases found
  | _ => cases found

/-- A term without a side condition has no bounds to keep. -/
theorem keepsBounds_of_maskAxiom?_eq_none {values : TermVar → Int} (none : maskAxiom? t = none) :
    t.KeepsBounds ops values := by
  cases t with
  | binary op a b =>
    cases op with
    | bitAnd => cases none
    | bitOr => cases none
    | _ => trivial
  | _ => trivial

theorem holds_bitwiseAxioms (f : Formula) :
    f.bitwiseAxioms.holds ops m = true ↔ ∀ t ∈ f.masks, t.KeepsBounds ops m.number := by
  rw [bitwiseAxioms, holds_conj]
  constructor
  · intro holds t mem
    cases found : maskAxiom? t with
    | none => exact keepsBounds_of_maskAxiom?_eq_none found
    | some g =>
      have listed : g ∈ f.masks.eraseDups.filterMap maskAxiom? :=
        List.mem_filterMap.mpr ⟨t, List.mem_eraseDups.mpr mem, found⟩
      exact (holds_maskAxiom? found).mp (holds g listed)
  · intro keeps g mem
    obtain ⟨t, inside, found⟩ := List.mem_filterMap.mp mem
    exact (holds_maskAxiom? found).mpr (keeps t (List.mem_eraseDups.mp inside))

theorem bitwiseAxioms_hold (digits : ops.Digitwise) (f : Formula) (m : Assignment) :
    f.bitwiseAxioms.holds ops m = true :=
  (holds_bitwiseAxioms f).mpr fun t _ => digits.keepsBounds m.number t

mutual

theorem within_of_mem_formula_masks (f : Formula) (within : f.Within L) (mem : t ∈ f.masks) :
    t.Within L := by
  cases f with
  | bool => cases mem
  | prop x => cases mem
  | atom r a b =>
    rcases List.mem_append.mp mem with mem | mem
    · exact Term.within_of_mem_masks within.1 mem
    · exact Term.within_of_mem_masks within.2 mem
  | not f => exact within_of_mem_formula_masks f within mem
  | nary c fs => exact within_of_mem_masksAll fs within mem
  | iff a b =>
    rcases List.mem_append.mp mem with mem | mem
    · exact within_of_mem_formula_masks a within.1 mem
    · exact within_of_mem_formula_masks b within.2 mem

theorem within_of_mem_masksAll (fs : List Formula) (within : WithinAll L fs)
    (mem : t ∈ masksAll fs) : t.Within L := by
  cases fs with
  | nil => cases mem
  | cons f fs =>
    rcases List.mem_append.mp mem with mem | mem
    · exact within_of_mem_formula_masks f within.1 mem
    · exact within_of_mem_masksAll fs within.2 mem

end

theorem maskAxiom?_within (zero : L.number 0) (within : t.Within L)
    (found : maskAxiom? t = some g) : g.Within L := by
  have atMostZero {u : Term} (inside : u.Within L) : (atMost (.const 0) u).Within L :=
    within_compare zero inside
  cases t with
  | binary op a b =>
    have premise : (conj [atMost (.const 0) a, atMost (.const 0) b]).negate.Within L :=
      within_negate (within_pair (atMostZero within.1) (atMostZero within.2))
    cases op with
    | bitAnd =>
      cases found
      refine within_pair premise (within_join ?_)
      simpa using ⟨atMostZero within, within_compare within within.1,
        within_compare within within.2⟩
    | bitOr =>
      cases found
      refine within_pair premise ?_
      exact within_pair (within_compare within.1 within) (within_compare within.2 within)
    | _ => cases found
  | _ => cases found

theorem within_bitwiseAxioms (zero : L.number 0) (within : f.Within L) :
    f.bitwiseAxioms.Within L := by
  refine within_join fun g mem => ?_
  obtain ⟨t, inside, found⟩ := List.mem_filterMap.mp mem
  exact maskAxiom?_within zero
    (within_of_mem_formula_masks f within (List.mem_eraseDups.mp inside)) found

end Formula

end ProgramAnalysis
