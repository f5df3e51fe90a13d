import Mathlib.Algebra.Order.Ring.Int
import ProgramAnalysis.Proofs.Analysis.Parts
import ProgramAnalysis.Proofs.Numeric.Machine
import ProgramAnalysis.Proofs.Table.NameMap

/-! Signs lose nothing. An operator on signs contains what the operation makes of the numbers of its
operands, a condition removes only states where it does not hold, and what known values say narrows
signs to the numbers that agree with them. -/
namespace ProgramAnalysis

namespace SignAtom

variable {v : Int}

theorem ofInt_negative (h : v < 0) : ofInt v = .negative := by simp [ofInt, h]

theorem ofInt_zero : ofInt 0 = .zero := rfl

theorem ofInt_positive (h : 0 < v) : ofInt v = .positive := by
  have notNegative : ¬ v < 0 := by omega
  have notZero : v ≠ 0 := by omega
  simp [ofInt, notNegative, notZero]

end SignAtom

namespace Sign

open SignAtom (ofInt_negative ofInt_zero ofInt_positive)

variable {s t : Sign} {a b r : SignAtom} {x y v : Int}

@[simp] theorem contains_bottom (a : SignAtom) : bottom.contains a = false := by cases a <;> rfl

@[simp] theorem contains_top (a : SignAtom) : top.contains a = true := by cases a <;> rfl

@[simp] theorem contains_join (a : SignAtom) :
    (s.join t).contains a = (s.contains a || t.contains a) := by cases a <;> rfl

@[simp] theorem contains_meet (a : SignAtom) :
    (s.meet t).contains a = (s.contains a && t.contains a) := by cases a <;> rfl

@[simp] theorem contains_ofAtom (a b : SignAtom) : (ofAtom a).contains b = decide (a = b) := by
  cases a <;> cases b <;> rfl

theorem contains_of_le (le : s.le t = true) (inside : s.contains a = true) :
    t.contains a = true := by
  simp only [Sign.le, Bool.and_eq_true, Bool.or_eq_true, Bool.not_eq_true'] at le
  cases a with
  | negative => exact le.1.1.resolve_left fun none => Bool.noConfusion (none.symm.trans inside)
  | zero => exact le.1.2.resolve_left fun none => Bool.noConfusion (none.symm.trans inside)
  | positive => exact le.2.resolve_left fun none => Bool.noConfusion (none.symm.trans inside)

/-! ### Numbers of a sign -/

theorem containsInt_of_le (le : s.le t = true) (inside : s.containsInt v = true) :
    t.containsInt v = true := contains_of_le le inside

theorem containsInt_ofInt (v : Int) : (ofInt v).containsInt v = true := by
  simp [ofInt, containsInt]

theorem containsInt_null : null.containsInt v = true ↔ v = 0 := by
  rcases lt_trichotomy v 0 with h | rfl | h
  · simp [containsInt, ofInt_negative h, contains, null, h.ne]
  · simp [containsInt, ofInt_zero, contains, null]
  · simp [containsInt, ofInt_positive h, contains, null, h.ne']

theorem containsInt_pos : pos.containsInt v = true ↔ 0 < v := by
  rcases lt_trichotomy v 0 with h | rfl | h
  · simp [containsInt, ofInt_negative h, contains, pos, h.le]
  · simp [containsInt, ofInt_zero, contains, pos]
  · simp [containsInt, ofInt_positive h, contains, pos, h]

theorem containsInt_neg : neg.containsInt v = true ↔ v < 0 := by
  rcases lt_trichotomy v 0 with h | rfl | h
  · simp [containsInt, ofInt_negative h, contains, neg, h]
  · simp [containsInt, ofInt_zero, contains, neg]
  · simp [containsInt, ofInt_positive h, contains, neg, h.le]

theorem containsInt_nonNeg : nonNeg.containsInt v = true ↔ 0 ≤ v := by
  rcases lt_trichotomy v 0 with h | rfl | h
  · simp [containsInt, ofInt_negative h, contains, nonNeg, h]
  · simp [containsInt, ofInt_zero, contains, nonNeg]
  · simp [containsInt, ofInt_positive h, contains, nonNeg, h.le]

theorem containsInt_nonPos : nonPos.containsInt v = true ↔ v ≤ 0 := by
  rcases lt_trichotomy v 0 with h | rfl | h
  · simp [containsInt, ofInt_negative h, contains, nonPos, h.le]
  · simp [containsInt, ofInt_zero, contains, nonPos]
  · simp [containsInt, ofInt_positive h, contains, nonPos, h]

theorem containsInt_nonZero : nonZero.containsInt v = true ↔ v ≠ 0 := by
  rcases lt_trichotomy v 0 with h | rfl | h
  · simp [containsInt, ofInt_negative h, contains, nonZero, h.ne]
  · simp [containsInt, ofInt_zero, contains, nonZero]
  · simp [containsInt, ofInt_positive h, contains, nonZero, h.ne']

@[simp] theorem containsInt_top (v : Int) : top.containsInt v = true := contains_top _

theorem ne_bottom_of_containsInt (inside : s.containsInt v = true) : s ≠ bottom := by
  rintro rfl
  rw [containsInt, contains_bottom] at inside
  cases inside

/-! ### Arithmetic -/

theorem contains_foldl_join {ss : List Sign} (start : t.contains a = true ∨
    ∃ s ∈ ss, s.contains a = true) : (ss.foldl join t).contains a = true := by
  induction ss generalizing t with
  | nil => simpa using start
  | cons s ss ih =>
    refine ih ?_
    rcases start with first | ⟨s', mem, inside⟩
    · exact .inl (by simp [first])
    · rcases List.mem_cons.mp mem with rfl | mem
      · exact .inl (by simp [inside])
      · exact .inr ⟨s', mem, inside⟩

theorem mem_atoms : a ∈ s.atoms ↔ s.contains a = true := by
  have listed : a ∈ SignAtom.all := by cases a <;> decide
  simp [atoms, listed]

theorem contains_lift {op : SignAtom → SignAtom → Sign} (left : s.contains a = true)
    (right : t.contains b = true) (result : (op a b).contains r = true) :
    (lift op s t).contains r = true := by
  refine contains_foldl_join (.inr ⟨op a b, ?_, result⟩)
  rw [List.mem_flatMap]
  exact ⟨a, mem_atoms.mpr left, List.mem_map_of_mem (mem_atoms.mpr right)⟩

/-- What an operation on atoms does to the atoms of two numbers. -/
theorem containsInt_lift {op : SignAtom → SignAtom → Sign} (left : s.containsInt x = true)
    (right : t.containsInt y = true) (result : (op (.ofInt x) (.ofInt y)).containsInt v = true) :
    (lift op s t).containsInt v = true := contains_lift left right result

theorem containsInt_negate (inside : s.containsInt x = true) :
    s.negate.containsInt (-x) = true := by
  rcases lt_trichotomy x 0 with h | rfl | h
  · rw [containsInt, ofInt_negative h] at inside
    rw [containsInt, ofInt_positive (by omega)]
    exact inside
  · exact inside
  · rw [containsInt, ofInt_positive h] at inside
    rw [containsInt, ofInt_negative (by omega)]
    exact inside

theorem addAtoms_contains (x y : Int) :
    (addAtoms (.ofInt x) (.ofInt y)).containsInt (x + y) = true := by
  rcases lt_trichotomy x 0 with hx | rfl | hx
  · rcases lt_trichotomy y 0 with hy | rfl | hy
    · simp [addAtoms, ofInt_negative, containsInt, hx, hy, show x + y < 0 by omega]
    · simp [addAtoms, ofInt_zero, ofInt_negative, containsInt, hx]
    · simp [addAtoms, ofInt_negative hx, ofInt_positive hy]
  · simp [addAtoms, ofInt_zero, containsInt]
  · rcases lt_trichotomy y 0 with hy | rfl | hy
    · simp [addAtoms, ofInt_positive hx, ofInt_negative hy]
    · simp [addAtoms, ofInt_zero, ofInt_positive, containsInt, hx]
    · simp [addAtoms, ofInt_positive, containsInt, hx, hy, show 0 < x + y by omega]

theorem mulAtoms_contains (x y : Int) :
    (mulAtoms (.ofInt x) (.ofInt y)).containsInt (x * y) = true := by
  rcases lt_trichotomy x 0 with hx | rfl | hx
  · rcases lt_trichotomy y 0 with hy | rfl | hy
    · simpa [mulAtoms, ofInt_negative, hx, hy] using
        containsInt_pos.mpr (Int.mul_pos_of_neg_of_neg hx hy)
    · simpa [mulAtoms, ofInt_zero, ofInt_negative, hx] using containsInt_null.mpr rfl
    · simpa [mulAtoms, ofInt_negative hx, ofInt_positive hy] using
        containsInt_neg.mpr (Int.mul_neg_of_neg_of_pos hx hy)
  · simpa [mulAtoms, ofInt_zero] using containsInt_null.mpr rfl
  · rcases lt_trichotomy y 0 with hy | rfl | hy
    · simpa [mulAtoms, ofInt_positive hx, ofInt_negative hy] using
        containsInt_neg.mpr (Int.mul_neg_of_pos_of_neg hx hy)
    · simpa [mulAtoms, ofInt_zero, ofInt_positive, hx] using containsInt_null.mpr rfl
    · simpa [mulAtoms, ofInt_positive, hx, hy] using containsInt_pos.mpr (Int.mul_pos hx hy)

theorem divAtoms_contains (x : Int) (divisor : y ≠ 0) :
    (divAtoms (.ofInt x) (.ofInt y)).containsInt (x.tdiv y) = true := by
  rcases lt_or_gt_of_ne divisor with hy | hy
  · have opposite : x.tdiv y = -(x.tdiv (-y)) := by rw [Int.tdiv_neg, Int.neg_neg]
    rcases lt_trichotomy x 0 with hx | rfl | hx
    · have := Int.tdiv_nonneg (show 0 ≤ -x by omega) (show 0 ≤ -y by omega)
      rw [Int.neg_tdiv, Int.tdiv_neg, Int.neg_neg] at this
      simpa [divAtoms, ofInt_negative, hx, hy] using containsInt_nonNeg.mpr this
    · simpa [divAtoms, ofInt_zero, ofInt_negative, hy] using containsInt_null.mpr rfl
    · have := Int.tdiv_nonneg hx.le (show 0 ≤ -y by omega)
      simpa [divAtoms, ofInt_positive hx, ofInt_negative hy] using
        containsInt_nonPos.mpr (show x.tdiv y ≤ 0 by omega)
  · rcases lt_trichotomy x 0 with hx | rfl | hx
    · have := Int.tdiv_nonneg (show 0 ≤ -x by omega) hy.le
      rw [Int.neg_tdiv] at this
      simpa [divAtoms, ofInt_negative hx, ofInt_positive hy] using
        containsInt_nonPos.mpr (show x.tdiv y ≤ 0 by omega)
    · simpa [divAtoms, ofInt_zero, ofInt_positive, hy] using containsInt_null.mpr rfl
    · have := Int.tdiv_nonneg hx.le hy.le
      simpa [divAtoms, ofInt_positive, hx, hy] using containsInt_nonNeg.mpr this

theorem remAtoms_contains (x : Int) (divisor : y ≠ 0) :
    (remAtoms (.ofInt x) (.ofInt y)).containsInt (x.tmod y) = true := by
  have nonzero : SignAtom.ofInt y ≠ .zero := by
    rcases lt_or_gt_of_ne divisor with hy | hy
    · simp [ofInt_negative hy]
    · simp [ofInt_positive hy]
  rcases lt_trichotomy x 0 with hx | rfl | hx
  · have := Int.tmod_nonneg y (show 0 ≤ -x by omega)
    rw [Int.neg_tmod] at this
    have found := containsInt_nonPos.mpr (show x.tmod y ≤ 0 by omega)
    rw [ofInt_negative hx]
    cases atom : SignAtom.ofInt y with
    | zero => exact absurd atom nonzero
    | negative => exact found
    | positive => exact found
  · rw [ofInt_zero, Int.zero_tmod]
    cases atom : SignAtom.ofInt y with
    | zero => exact absurd atom nonzero
    | negative => rfl
    | positive => rfl
  · have found := containsInt_nonNeg.mpr (Int.tmod_nonneg y hx.le)
    rw [ofInt_positive hx]
    cases atom : SignAtom.ofInt y with
    | zero => exact absurd atom nonzero
    | negative => exact found
    | positive => exact found

theorem containsInt_logicalNot (inside : s.containsInt x = true) :
    s.logicalNot.containsInt (bit (x == 0)) = true := by
  have eitherWay : 0 ≤ bit (x == 0) := by unfold bit; split <;> decide
  unfold logicalNot
  split
  · rename_i isNull
    have zero : x = 0 := containsInt_null.mp (isNull ▸ inside)
    rw [zero]
    rfl
  · split
    · exact containsInt_nonNeg.mpr eitherWay
    · rename_i noZero
      have nonzero : x ≠ 0 := by
        rintro rfl
        exact noZero inside
      rw [containsInt_null]
      simp [bit, nonzero]

theorem containsInt_arith {op : ArithOp} (left : s.containsInt x = true)
    (right : t.containsInt y = true) (result : Dialect.machine.arith op x y = some v) :
    (s.arith op t).containsInt v = true := by
  cases op with
  | add =>
    obtain ⟨rfl, -⟩ := Machine.fits_of_checked result
    exact containsInt_lift left right (addAtoms_contains x y)
  | sub =>
    obtain ⟨rfl, -⟩ := Machine.fits_of_checked result
    rw [Int.sub_eq_add_neg]
    exact containsInt_lift left (containsInt_negate right) (addAtoms_contains x (-y))
  | mul =>
    obtain ⟨rfl, -⟩ := Machine.fits_of_checked result
    exact containsInt_lift left right (mulAtoms_contains x y)
  | div =>
    simp only [Dialect.machine, Machine.compute?] at result
    split at result
    · cases result
    · rename_i divisor
      obtain ⟨rfl, -⟩ := Machine.fits_of_checked result
      exact containsInt_lift left right (divAtoms_contains x divisor)
  | rem =>
    simp only [Dialect.machine] at result
    split at result
    · cases result
    · rename_i divisor
      cases result
      exact containsInt_lift left right (remAtoms_contains x divisor)
  | bitAnd => exact containsInt_top v
  | bitOr => exact containsInt_top v
  | bitXor => exact containsInt_top v
  | shl => exact containsInt_top v
  | shr => exact containsInt_top v

theorem containsInt_comparedTo {c : Comparison} (other : s.containsInt y = true)
    (holds : c.holds x y = true) : (s.comparedTo c).containsInt x = true := by
  cases c with
  | eq => exact (of_decide_eq_true holds : x = y) ▸ other
  | ne =>
    simp only [comparedTo]
    split
    · rename_i isNull
      have zero : y = 0 := containsInt_null.mp (isNull ▸ other)
      exact containsInt_nonZero.mpr (zero ▸ of_decide_eq_true holds)
    · exact containsInt_top x
  | gt =>
    have less : y < x := of_decide_eq_true holds
    simp only [comparedTo]
    split
    · rename_i le
      have := containsInt_nonNeg.mp (containsInt_of_le le other)
      exact containsInt_pos.mpr (by omega)
    · exact containsInt_top x
  | ge =>
    have less : y ≤ x := of_decide_eq_true holds
    simp only [comparedTo]
    split
    · rename_i le
      have := containsInt_pos.mp (containsInt_of_le le other)
      exact containsInt_pos.mpr (by omega)
    · split
      · rename_i le
        have := containsInt_nonNeg.mp (containsInt_of_le le other)
        exact containsInt_nonNeg.mpr (by omega)
      · exact containsInt_top x
  | lt =>
    have less : x < y := of_decide_eq_true holds
    simp only [comparedTo]
    split
    · rename_i le
      have := containsInt_nonPos.mp (containsInt_of_le le other)
      exact containsInt_neg.mpr (by omega)
    · exact containsInt_top x
  | le =>
    have less : x ≤ y := of_decide_eq_true holds
    simp only [comparedTo]
    split
    · rename_i le
      have := containsInt_neg.mp (containsInt_of_le le other)
      exact containsInt_neg.mpr (by omega)
    · split
      · rename_i le
        have := containsInt_nonPos.mp (containsInt_of_le le other)
        exact containsInt_nonPos.mpr (by omega)
      · exact containsInt_top x

end Sign

namespace SignState

/-- The variables of the store have the signs of the state. -/
def Contains (st : SignState) (s : Store) : Prop := ∀ x, (st.get x).containsInt (s x) = true

variable {st st' : SignState} {s t : Store} {x : String} {v : Int} {sign : Sign} {e : Expr}
  {truth : Bool}

theorem Contains.known (holds : st.Contains s) : ∃ m, st = .known m := by
  cases st with
  | bottom => exact absurd rfl (Sign.ne_bottom_of_containsInt (holds ""))
  | known m => exact ⟨m, rfl⟩

theorem contains_top (s : Store) : top.Contains s := fun x => Sign.containsInt_top (s x)

theorem Contains.set (holds : st.Contains s) (inside : sign.containsInt v = true) :
    (st.set x sign).Contains (s.set x v) := by
  obtain ⟨m, rfl⟩ := holds.known
  intro y
  have here := holds y
  simp only [SignState.get, SignMap.get] at here
  simp only [SignState.set, dif_neg (Sign.ne_bottom_of_containsInt inside)]
  by_cases same : y = x
  · subst same
    rw [Store.set_same]
    split
    · simp [SignState.get, SignMap.get, SignMap.erase, NameMap.get?_erase]
    · simpa [SignState.get, SignMap.get, SignMap.insert] using inside
  · rw [Store.set_other v same]
    split
    · simpa [SignState.get, SignMap.get, SignMap.erase, NameMap.get?_erase, same] using here
    · simpa [SignState.get, SignMap.get, SignMap.insert, same] using here

theorem Contains.narrow (holds : st.Contains s) (inside : sign.containsInt (s x) = true) :
    (st.set x sign).Contains s := by
  have narrowed := holds.set (x := x) inside
  rwa [Store.set_self] at narrowed

theorem Contains.forget (holds : st.Contains s) (v : Int) : (st.forget x).Contains (s.set x v) :=
  holds.set (Sign.containsInt_top v)

theorem Contains.restrict (holds : st.Contains s) (inside : sign.containsInt (s x) = true) :
    (st.restrict x sign).Contains s := by
  refine holds.narrow ?_
  rw [Sign.containsInt, Sign.contains_meet, Bool.and_eq_true]
  exact ⟨holds x, inside⟩

theorem Contains.le (holds : st.Contains s) (le : st.le st' = true) : st'.Contains s := by
  obtain ⟨m, rfl⟩ := holds.known
  cases st' with
  | bottom => cases le
  | known n =>
    intro x
    cases found : n.signs.get? x with
    | none => simp [SignState.get, SignMap.get, found]
    | some sign =>
      have smaller := List.all_eq_true.mp le _ (NameMap.mem_of_get? found)
      simpa [SignState.get, SignMap.get, found] using Sign.containsInt_of_le smaller (holds x)

/-- A join keeps the numbers of both states; those of the second are the ones a merge needs. -/
theorem Contains.join (holds : st'.Contains s) : (st.join st').Contains s := by
  obtain ⟨n, rfl⟩ := holds.known
  cases st with
  | bottom => exact holds
  | known m =>
    simp only [SignState.join]
    refine List.foldlRecOn (motive := fun acc => Contains acc s) _ _ (contains_top s)
      fun acc inside e _ => ?_
    refine inside.narrow ?_
    rw [Sign.containsInt, Sign.contains_join, Bool.or_eq_true]
    exact .inr (holds e.1)

/-! ### Expressions and conditions -/

theorem eval_contains (holds : st.Contains s) (value : e.Evaluates .machine s v) :
    (st.eval e).containsInt v = true := by
  obtain ⟨m, rfl⟩ := holds.known
  simp only [eval]
  induction value with
  | var x => exact holds x
  | const c => exact Sign.containsInt_ofInt c
  | nondet => exact Sign.containsInt_top _
  | deref => exact Sign.containsInt_top _
  | bitNot => exact Sign.containsInt_top _
  | neg operand result ih =>
    obtain ⟨rfl, -⟩ := Machine.fits_of_checked result
    exact Sign.containsInt_negate ih
  | not operand ih => exact Sign.containsInt_logicalNot ih
  | arith left right result ihLeft ihRight => exact Sign.containsInt_arith ihLeft ihRight result
  | compare => exact Sign.containsInt_nonNeg.mpr (bit_nonneg _)
  | logic => exact Sign.containsInt_nonNeg.mpr (bit_nonneg _)
  | decided => exact Sign.containsInt_nonNeg.mpr (bit_nonneg _)

theorem Contains.assumeValue (holds : st.Contains s) (value : e.Evaluates .machine s v)
    (agrees : (v != 0) = truth) : (st.assumeValue e truth).Contains s := by
  have inside := eval_contains holds value
  unfold SignState.assumeValue
  rw [if_pos]
  · exact holds
  · cases truth with
    | true =>
      have nonzero : v ≠ 0 := by simpa using agrees
      have notNull : st.eval e ≠ .null := fun isNull =>
        nonzero (Sign.containsInt_null.mp (isNull ▸ inside))
      simpa using notNull
    | false =>
      have zero : v = 0 := by simpa using agrees
      subst zero
      exact inside

theorem Contains.assumeSide {c : Comparison} {side other : Expr} {x y : Int}
    (holds : st.Contains s) (left : side.Evaluates .machine s x)
    (right : other.Evaluates .machine s y) (compares : c.holds x y = true) :
    (st.assumeSide c side other).Contains s := by
  cases left with
  | var => exact holds.restrict (Sign.containsInt_comparedTo (eval_contains holds right) compares)
  | _ => exact holds

/-- A condition that holds in a store keeps the store, whatever it restricts. -/
theorem Contains.assume (holds : st.Contains s) (value : e.Evaluates .machine s v)
    (agrees : (v != 0) = truth) : (st.assume e truth).Contains s := by
  induction e generalizing st truth v with
  | not c ih =>
    cases value with
    | not operand => exact ih holds operand (by rw [← agrees, bit_ne_zero]; rfl)
  | compare c a b =>
    cases value with
    | @compare _ _ _ x y left right =>
      rw [bit_ne_zero] at agrees
      have compares : (if truth then c else c.complement).holds x y = true := by
        cases truth with
        | true => exact agrees
        | false => simpa [Comparison.holds_complement] using agrees
      have first := holds.assumeSide left right compares
      exact first.assumeSide right left ((Comparison.holds_swap _ _ _).trans compares)
  | logic c a b ihA ihB =>
    by_cases unit : truth = c.unit
    · obtain ⟨x, y, left, right, agreesA, agreesB⟩ := value.sides (agrees.trans unit)
      subst unit
      cases c with
      | and => exact ihB (ihA holds left agreesA) right agreesB
      | or => exact ihB (ihA holds left agreesA) right agreesB
    · have kept := holds.assumeValue value agrees
      cases c with
      | and =>
        cases truth with
        | true => exact absurd rfl unit
        | false => exact kept
      | or =>
        cases truth with
        | true => exact kept
        | false => exact absurd rfl unit
  | var x =>
    cases value
    refine holds.restrict ?_
    cases truth with
    | true => exact Sign.containsInt_nonZero.mpr (by simpa using agrees)
    | false => exact Sign.containsInt_null.mpr (by simpa using agrees)
  | _ => exact holds.assumeValue value agrees

/-! ### Actions -/

/-- Arguments are evaluated before any parameter is set. -/
theorem Contains.setAll (holds : st.Contains s) {args : List Expr} {vs : List Int}
    (arguments : List.Forall₂ (Expr.Evaluates .machine s) args vs) {params : List String}
    {acc : SignState} (inside : acc.Contains t) :
    ((params.zip args).foldl (fun acc (x, e) => acc.set x (st.eval e)) acc).Contains
      (t.setAll (params.zip vs)) := by
  induction arguments generalizing params acc t with
  | nil => simpa [Store.setAll] using inside
  | cons value _ ih =>
    cases params with
    | nil => simpa [Store.setAll] using inside
    | cons x params => exact ih (inside.set (eval_contains holds value))

theorem after_contains {a : Action} (holds : st.Contains s) (acts : a.Acts .machine s t)
    (after : st.after a = .ok st') : st'.Contains t := by
  cases acts with
  | skip =>
    cases after
    exact holds
  | declare any =>
    cases after
    exact holds.forget _
  | init value =>
    cases after
    exact holds.set (eval_contains holds value)
  | assign value =>
    cases after
    exact holds.set (eval_contains holds value)
  | store any => cases after
  | assume value agrees =>
    cases after
    exact holds.assume value agrees
  | call arguments arity =>
    simp only [SignState.after, if_pos arity] at after
    cases after
    exact holds.setAll arguments holds
  | ignore any kept =>
    cases after
    exact holds.forget _
  | receive any kept =>
    cases after
    exact (holds.set (holds _)).forget _
  | receiveAt any => cases after
  | yield value =>
    cases after
    exact holds.set (eval_contains holds value)
  | finish =>
    cases after
    exact holds.set (Sign.containsInt_null.mpr rfl)

theorem successors_contain {edge : Edge} {next : List SignState}
    (found : st.successors edge = .ok next) (holds : st.Contains s)
    (acts : edge.action.Acts .machine s t) : ∃ f ∈ next, f.Contains t := by
  obtain ⟨m, rfl⟩ := holds.known
  simp only [successors] at found
  split at found
  · rename_i f after
    have inside := after_contains holds acts after
    obtain ⟨n, rfl⟩ := inside.known
    cases found
    exact ⟨_, List.mem_singleton_self _, inside⟩
  · cases found

/-! ### Known values -/

theorem agreeWith_contains {values : List (String × Int)} (holds : st.Contains s)
    (agrees : ∀ e ∈ values, s e.1 = e.2) :
    ∃ st', st.agreeWith values = some st' ∧ st'.Contains s := by
  induction values generalizing st with
  | nil => exact ⟨st, rfl, holds⟩
  | cons e rest ih =>
    obtain ⟨x, v⟩ := e
    obtain ⟨here, others⟩ := List.forall_mem_cons.mp agrees
    have refined : ((st.get x).meet (.ofInt v)).containsInt (s x) = true := by
      rw [Sign.containsInt, Sign.contains_meet, Bool.and_eq_true]
      exact ⟨holds x, here ▸ Sign.containsInt_ofInt (s x)⟩
    rw [agreeWith, if_neg (Sign.ne_bottom_of_containsInt refined)]
    exact ih (holds.narrow refined) others

end SignState

/-! ### The analysis -/

variable {σ π : Type} {A : Ambient σ} {program : Automaton} {π₀ : π}

theorem Part.contains_of_first? {ε : Type} [PartKind ε] {contains : Part → Config → Prop}
    {parts : List Part} {e : ε} {c : Config} (found : Part.first? ε parts = some e)
    (all : ∀ p ∈ parts, contains p c) : ∃ p, PartKind.ofPart? p = some e ∧ contains p c := by
  obtain ⟨p, mem, here⟩ := List.exists_of_findSome?_eq_some found
  exact ⟨p, here, all p mem⟩

open Ambient (keeps_pure)
open Analysis (keeps_ofExcept)

theorem Analysis.strengthenSigns_contains {st : SignState} {siblings : List Part} {s : Store}
    (holds : st.Contains s) (agrees : ∀ known, Part.first? ExplicitState siblings = some known →
      ∀ e ∈ known.values.entries, s e.1 = e.2) :
    match strengthenSigns st siblings with
    | .unchanged => True
    | .replaced f => f.Contains s
    | .infeasible => False := by
  unfold strengthenSigns
  cases found : Part.first? ExplicitState siblings with
  | none => trivial
  | some known =>
    obtain ⟨f, narrowed, inside⟩ := SignState.agreeWith_contains holds (agrees known found)
    simp only [narrowed]
    by_cases same : f = st
    · simp [same]
    · simpa [same] using inside

theorem Analysis.strengthenSigns_sound {abstracts : PredicateState → Config → Prop} {st : SignState}
    {siblings : List Part} {c : Config} (holds : st.Contains c.store)
    (all : ∀ p ∈ siblings, Part.Contains abstracts p c) :
    match strengthenSigns st siblings with
    | .unchanged => True
    | .replaced t => t.Contains c.store
    | .infeasible => False := by
  refine strengthenSigns_contains holds fun known found => ?_
  obtain ⟨p, kind, contained⟩ := Part.contains_of_first? found all
  cases p with
  | explicit f =>
    cases kind
    exact fun e mem => contained.2 _ _ (NameMap.get?_of_mem mem)
  | _ => cases kind

theorem Analysis.signs_sound (abstracts : PredicateState → Config → Prop) (rule : MergeRule) :
    (signs rule : Analysis σ SignState π).SoundSeen PartKind.toPart A
      (Part.Contains abstracts) .machine program π₀ fun _ _ => True where
  good_mono _ _ := trivial
  same _ _ equal holds := (of_decide_eq_true equal) ▸ holds
  initial valid := keeps_pure valid ⟨trivial, fun c _ => SignState.contains_top c.store⟩
  successors := by
    intro s e edge valid _ _
    refine keeps_ofExcept valid fun next found => ⟨fun _ _ => trivial, fun c c' holds follows => ?_⟩
    exact SignState.successors_contain found holds follows.acts
  strengthen := by
    intro s e siblings edge valid _
    refine keeps_pure valid ?_
    cases result : strengthenSigns e siblings with
    | unchanged => trivial
    | replaced f =>
      refine ⟨trivial, fun c holds all => ?_⟩
      have inside := strengthenSigns_sound holds all
      rw [result] at inside
      exact inside
    | infeasible =>
      intro c holds all
      have inside := strengthenSigns_sound holds all
      rw [result] at inside
      exact inside.elim
  merge := by
    intro s e f valid _ _
    cases rule with
    | separate => exact keeps_pure valid ⟨trivial, fun _ h => h⟩
    | join => exact keeps_pure valid ⟨trivial, fun c h => SignState.Contains.join h⟩
  isBottom := by
    intro s e valid _
    refine keeps_pure valid fun yes c holds => ?_
    obtain ⟨m, rfl⟩ := SignState.Contains.known holds
    cases yes
  covers := by
    intro s e f valid _ _
    exact keeps_pure valid fun yes c holds => SignState.Contains.le holds yes

end ProgramAnalysis
