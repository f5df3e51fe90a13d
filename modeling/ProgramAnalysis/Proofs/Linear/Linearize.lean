import ProgramAnalysis.Formula.Meaning
import ProgramAnalysis.Linear.Constraint
import ProgramAnalysis.Proofs.Linear.Form
import ProgramAnalysis.Proofs.Numeric.Machine
import ProgramAnalysis.Proofs.Outcome

/-! Linear forms have the value of the terms they come from, when the variable of an opaque term has the
value of that term. Opaque terms keep their variables, so a form stays right while others are made. Sums
and multiples of forms are exact. What an operation on constants gives need not be, so a form is right as
far as these operations are. -/
namespace ProgramAnalysis

open Machine (bound128 fits fits_of_checked)

variable {ops : Operators} {known known' later : List Term} {e e' : LinearForm} {t a b : Term}
  {op : ArithOp} {k c : Int}

/-- The values of the opaque terms, as values of their variables. -/
def opaqueValues (ops : Operators) (values : TermVar → Int) (known : List Term) (x : Nat) : Int :=
  (known[x]?.map (·.eval ops values)).getD 0

/-! ### Steps -/

namespace LinearizeM

theorem of_orOverflow {o : Option LinearForm} (run : (orOverflow o).run known = .ok (e, known')) :
    o = some e ∧ known' = known := by
  cases o with
  | none => cases run
  | some e' =>
    cases run
    exact ⟨rfl, rfl⟩

/-- An opaque term keeps its variable, or it is a new one. -/
theorem of_opaqueTerm (run : (opaqueTerm t).run known = .ok (e, known')) :
    ∃ x, e = .ofVar x ∧ known'[x]? = some t ∧ (known' = known ∨ t ∉ known ∧ known' = known ++ [t]) := by
  obtain ⟨_, _, ⟨⟩, rest⟩ := Checked.exists_of_bind run
  split at rest
  · rename_i x found
    cases rest
    obtain ⟨inside, here, -⟩ := List.idxOf?_eq_some_iff.mp found
    exact ⟨x, rfl, List.getElem?_eq_some_iff.mpr ⟨inside, by simpa using here⟩, .inl rfl⟩
  · rename_i absent
    cases rest
    exact ⟨known.length, rfl, by simp, .inr ⟨by simpa using absent, rfl⟩⟩

theorem grows_opaqueTerm (run : (opaqueTerm t).run known = .ok (e, known')) :
    known <+: known' ∧ (known.Nodup → known'.Nodup) := by
  obtain ⟨x, -, -, rfl | ⟨absent, rfl⟩⟩ := of_opaqueTerm run
  · exact ⟨List.prefix_refl _, id⟩
  · refine ⟨List.prefix_append _ _, fun distinct => ?_⟩
    refine List.nodup_append.mpr ⟨distinct, by simp, fun u mem w last => ?_⟩
    rw [List.mem_singleton.mp last]
    rintro rfl
    exact absent mem

end LinearizeM

namespace Term

open LinearizeM

/-- How the form of a binary operation comes from the forms of its operands. -/
inductive Combines (op : ArithOp) (a b : Term) (ea eb : LinearForm) (known : List Term) :
    LinearForm → List Term → Prop where
  | add {e : LinearForm} : op = .add → ea.addScaled? eb 1 = some e → Combines op a b ea eb known e known
  | sub {e : LinearForm} : op = .sub → ea.sub? eb = some e → Combines op a b ea eb known e known
  | mulLeft {c : Int} {e : LinearForm} : op = .mul → ea.const? = some c → eb.scale? c = some e →
    Combines op a b ea eb known e known
  | mulRight {c : Int} {e : LinearForm} : op = .mul → eb.const? = some c → ea.scale? c = some e →
    Combines op a b ea eb known e known
  | fold {x y c : Int} : ea.const? = some x → eb.const? = some y →
    Machine.compute? bound128 op x y = some c → Combines op a b ea eb known (.ofConst c) known
  | asOpaque {e : LinearForm} {known' : List Term} :
    (opaqueTerm (.binary op a b)).run known = .ok (e, known') → Combines op a b ea eb known e known'

theorem of_linearize_neg (run : (neg a).linearize.run known = .ok (e, known')) :
    ∃ ea, a.linearize.run known = .ok (ea, known') ∧ ea.scale? (-1) = some e := by
  rw [linearize] at run
  obtain ⟨ea, known₁, operand, rest⟩ := Checked.exists_of_bind run
  obtain ⟨scaled, rfl⟩ := of_orOverflow rest
  exact ⟨ea, operand, scaled⟩

theorem of_linearize_bitNot (run : (bitNot a).linearize.run known = .ok (e, known')) :
    ∃ ea m, a.linearize.run known = .ok (ea, known') ∧ ea.scale? (-1) = some m ∧
      m.addConst? (-1) = some e := by
  rw [linearize] at run
  obtain ⟨ea, known₁, operand, rest⟩ := Checked.exists_of_bind run
  obtain ⟨m, known₂, negated, last⟩ := Checked.exists_of_bind rest
  obtain ⟨scaled, rfl⟩ := of_orOverflow negated
  obtain ⟨added, rfl⟩ := of_orOverflow last
  exact ⟨ea, m, operand, scaled, added⟩

theorem of_linearize_binary (run : (binary op a b).linearize.run known = .ok (e, known')) :
    ∃ ea known₁ eb known₂, a.linearize.run known = .ok (ea, known₁) ∧
      b.linearize.run known₁ = .ok (eb, known₂) ∧ Combines op a b ea eb known₂ e known' := by
  rw [linearize] at run
  obtain ⟨ea, known₁, left, rest⟩ := Checked.exists_of_bind run
  obtain ⟨eb, known₂, right, last⟩ := Checked.exists_of_bind rest
  refine ⟨ea, known₁, eb, known₂, left, right, ?_⟩
  clear run rest
  split at last
  · obtain ⟨added, rfl⟩ := of_orOverflow last
    exact .add rfl added
  · obtain ⟨subtracted, rfl⟩ := of_orOverflow last
    exact .sub rfl subtracted
  · rename_i constant
    obtain ⟨scaled, rfl⟩ := of_orOverflow last
    exact .mulLeft rfl constant scaled
  · rename_i constant
    obtain ⟨scaled, rfl⟩ := of_orOverflow last
    exact .mulRight rfl constant scaled
  · exact .asOpaque last
  · rename_i constantA constantB
    split at last
    · rename_i computed
      cases last
      exact .fold constantA constantB computed
    · exact .asOpaque last
  · exact .asOpaque last

/-! ### Opaque terms -/

theorem Combines.grows {ea eb : LinearForm} (combines : Combines op a b ea eb known e known') :
    known <+: known' ∧ (known.Nodup → known'.Nodup) := by
  cases combines with
  | add | sub | mulLeft | mulRight | fold => exact ⟨List.prefix_refl _, id⟩
  | asOpaque run => exact grows_opaqueTerm run

/-- Opaque terms keep their variables, and no two variables stand for the same term. -/
theorem linearize_grows (run : t.linearize.run known = .ok (e, known')) :
    known <+: known' ∧ (known.Nodup → known'.Nodup) := by
  induction t generalizing known known' e with
  | const c =>
    cases run
    exact ⟨List.prefix_refl _, id⟩
  | var x => exact grows_opaqueTerm run
  | neg a ih =>
    obtain ⟨ea, operand, -⟩ := of_linearize_neg run
    exact ih operand
  | bitNot a ih =>
    obtain ⟨ea, m, operand, -⟩ := of_linearize_bitNot run
    exact ih operand
  | binary op a b ihA ihB =>
    obtain ⟨ea, known₁, eb, known₂, left, right, combines⟩ := of_linearize_binary run
    obtain ⟨first, distinctA⟩ := ihA left
    obtain ⟨second, distinctB⟩ := ihB right
    obtain ⟨third, distinct⟩ := combines.grows
    exact ⟨first.trans (second.trans third), distinct ∘ distinctB ∘ distinctA⟩

/-! ### Constants -/

section Constants

variable {known₁ known₂ : List Term} {x y : Int}

theorem linearize_fold {ea eb : LinearForm} (left : a.linearize.run known = .ok (ea, known₁))
    (right : b.linearize.run known₁ = .ok (eb, known₂)) (constantA : ea.const? = some x)
    (constantB : eb.const? = some y) (computed : Machine.compute? bound128 op x y = some c)
    (other : op ≠ .add ∧ op ≠ .sub ∧ op ≠ .mul) :
    (binary op a b).linearize.run known = .ok (.ofConst c, known₂) := by
  rw [linearize, Checked.run_bind_of_ok left, Checked.run_bind_of_ok right, constantA, constantB]
  cases op with
  | add => exact absurd rfl other.1
  | sub => exact absurd rfl other.2.1
  | mul => exact absurd rfl other.2.2
  | _ =>
    simp only [computed]
    rfl

theorem linearize_neg_constant (operand : a.linearize.run known = .ok (.ofConst x, known'))
    (inside : fits bound128 (-x) = true) :
    (neg a).linearize.run known = .ok (.ofConst (-x), known') := by
  rw [← Int.mul_neg_one] at inside ⊢
  rw [linearize, Checked.run_bind_of_ok operand, LinearForm.scale?_ofConst inside]
  rfl

theorem linearize_bitNot_constant (operand : a.linearize.run known = .ok (.ofConst x, known'))
    (negated : fits bound128 (-x) = true) (inside : fits bound128 (Bitwise.not x) = true) :
    (bitNot a).linearize.run known = .ok (.ofConst (Bitwise.not x), known') := by
  rw [linearize, Checked.run_bind_of_ok operand,
    LinearForm.scale?_ofConst (by rwa [Int.mul_neg_one]), Int.mul_neg_one]
  change (orOverflow ((LinearForm.ofConst (-x)).addConst? (-1))).run known' = _
  rw [LinearForm.addConst?_ofConst inside]
  rfl

theorem linearize_binary_constant (left : a.linearize.run known = .ok (.ofConst x, known₁))
    (right : b.linearize.run known₁ = .ok (.ofConst y, known₂))
    (computed : Machine.compute? bound128 op x y = some c) (inside : fits bound128 y = true)
    (negated : fits bound128 (-y) = true) :
    (binary op a b).linearize.run known = .ok (.ofConst c, known₂) := by
  by_cases linear : op = .add ∨ op = .sub ∨ op = .mul
  · rw [linearize, Checked.run_bind_of_ok left, Checked.run_bind_of_ok right]
    rcases linear with rfl | rfl | rfl
    · obtain ⟨rfl, total⟩ := fits_of_checked computed
      change (orOverflow ((LinearForm.ofConst x).addScaled? (.ofConst y) 1)).run known₂ = _
      rw [← Int.mul_one y] at inside total
      rw [LinearForm.addScaled?_ofConst inside total, Int.mul_one]
      rfl
    · obtain ⟨rfl, total⟩ := fits_of_checked computed
      change (orOverflow ((LinearForm.ofConst x).addScaled? (.ofConst y) (-1))).run known₂ = _
      rw [← Int.mul_neg_one y] at negated
      rw [Int.sub_eq_add_neg, ← Int.mul_neg_one y] at total ⊢
      rw [LinearForm.addScaled?_ofConst negated total]
      rfl
    · obtain ⟨rfl, total⟩ := fits_of_checked computed
      change (orOverflow ((LinearForm.ofConst y).scale? x)).run known₂ = _
      rw [Int.mul_comm] at total ⊢
      rw [LinearForm.scale?_ofConst total]
      rfl
  · exact linearize_fold left right rfl rfl computed (by simpa using linear)

end Constants

end Term

/-! ### Values -/

/-- The operators whose operations stay in the form are the mathematical ones. -/
structure Operators.Linear (ops : Operators) : Prop where
  neg : ∀ x, ops.neg x = -x
  bitNot : ∀ x, ops.bitNot x = Bitwise.not x
  add : ∀ x y, ops.binary .add x y = x + y
  sub : ∀ x y, ops.binary .sub x y = x - y
  mul : ∀ x y, ops.binary .mul x y = x * y

/-- The form has the value of the term whenever the opaque terms met so far are known. -/
structure LinearForm.Represents (ops : Operators) (e : LinearForm) (known : List Term)
    (t : Term) : Prop where
  increasing : e.Increasing
  eval : ∀ later, known <+: later → ∀ values,
    e.eval (opaqueValues ops values later) = t.eval ops values

namespace LinearForm.Represents

theorem mono (represents : e.Represents ops known t) (more : known <+: later) :
    e.Represents ops later t :=
  ⟨represents.increasing, fun _ again => represents.eval _ (more.trans again)⟩

theorem ofConst (value : ∀ values, t.eval ops values = c) : (ofConst c).Represents ops known t :=
  ⟨increasing_ofConst c, fun _ _ values => (eval_ofConst _ c).trans (value values).symm⟩

theorem addScaled? {ea eb : LinearForm} (left : ea.Represents ops known a)
    (right : eb.Represents ops known b) (added : ea.addScaled? eb k = some e)
    (value : ∀ values, t.eval ops values = a.eval ops values + k * b.eval ops values) :
    e.Represents ops known t where
  increasing := left.increasing.addScaled? right.increasing added
  eval later grown values := by
    rw [(of_addScaled? added).1, left.eval later grown, right.eval later grown, value]

theorem scale? (represents : e.Represents ops known a) (scaled : e.scale? k = some e')
    (value : ∀ values, t.eval ops values = k * a.eval ops values) :
    e'.Represents ops known t where
  increasing := represents.increasing.scale? scaled
  eval later grown values := by
    rw [eval_scale? scaled, represents.eval later grown, value]

theorem addConst? (represents : e.Represents ops known a) (added : e.addConst? c = some e')
    (value : ∀ values, t.eval ops values = a.eval ops values + c) :
    e'.Represents ops known t where
  increasing := represents.increasing.addConst? added
  eval later grown values := by
    rw [(of_addConst? added).1, represents.eval later grown, value]

theorem eval_of_const? (represents : e.Represents ops known t) (constant : e.const? = some c)
    (values : TermVar → Int) : t.eval ops values = c := by
  rw [← represents.eval known (List.prefix_refl known), LinearForm.eval_of_const? constant]

theorem opaqueTerm (run : (LinearizeM.opaqueTerm t).run known = .ok (e, known')) :
    e.Represents ops known' t := by
  obtain ⟨x, rfl, here, -⟩ := LinearizeM.of_opaqueTerm run
  refine ⟨increasing_ofVar x, ?_⟩
  rintro - ⟨rest, rfl⟩ values
  obtain ⟨inside, -⟩ := List.getElem?_eq_some_iff.mp here
  rw [eval_ofVar, opaqueValues, List.getElem?_append_left inside, here]
  rfl

end LinearForm.Represents

namespace Term

/-- What holds of a term and of all its subterms, each with the opaque terms that are known when it is
linearized. -/
def Along (good : List Term → Term → Prop) : Term → List Term → Prop
  | .const c, known => good known (.const c)
  | .var x, known => good known (.var x)
  | .neg a, known => good known (.neg a) ∧ a.Along good known
  | .bitNot a, known => good known (.bitNot a) ∧ a.Along good known
  | .binary op a b, known => good known (.binary op a b) ∧ a.Along good known ∧
    ∀ e known', a.linearize.run known = .ok (e, known') → b.Along good known'

theorem Along.here {good : List Term → Term → Prop} (along : t.Along good known) : good known t := by
  cases t with
  | const | var => exact along
  | neg | bitNot | binary => exact along.1

theorem Along.imp {good good' : List Term → Term → Prop} (along : t.Along good known)
    (step : ∀ known t, good known t → good' known t) : t.Along good' known := by
  induction t generalizing known with
  | const | var => exact step _ _ along
  | neg a ih | bitNot a ih => exact ⟨step _ _ along.1, ih along.2⟩
  | binary op a b ihA ihB =>
    exact ⟨step _ _ along.1, ihA along.2.1, fun e known' left => ihB (along.2.2 e known' left)⟩

/-- What holds of all subterms of a term holds of all subterms of its subterms. -/
theorem Along.along {good : List Term → Term → Prop} (along : t.Along good known) :
    t.Along (fun known t => t.Along good known) known := by
  induction t generalizing known with
  | const | var => exact along
  | neg a ih | bitNot a ih => exact ⟨along, ih along.2⟩
  | binary op a b ihA ihB =>
    exact ⟨along, ihA along.2.1, fun e known' left => ihB (along.2.2 e known' left)⟩

/-- The term is an operation on two operands whose forms are constants. -/
def OfConstants (known : List Term) (t : Term) (op : ArithOp) (x y : Int) : Prop :=
  ∃ a b ea known₁ eb known₂, t = .binary op a b ∧ a.linearize.run known = .ok (ea, known₁) ∧
    b.linearize.run known₁ = .ok (eb, known₂) ∧ ea.const? = some x ∧ eb.const? = some y

/-- What is computed of two constants is what the operator makes of them. -/
def Folds (ops : Operators) (known : List Term) (t : Term) : Prop :=
  ∀ op x y c, t.OfConstants known op x y → Machine.compute? bound128 op x y = some c →
    ops.binary op x y = c

theorem linearize_represents (linear : ops.Linear) (folds : t.Along (Folds ops) known)
    (run : t.linearize.run known = .ok (e, known')) : e.Represents ops known' t := by
  induction t generalizing known known' e with
  | const c =>
    cases run
    exact .ofConst fun _ => rfl
  | var x => exact .opaqueTerm run
  | neg a ih =>
    obtain ⟨ea, operand, scaled⟩ := of_linearize_neg run
    refine (ih folds.2 operand).scale? scaled fun values => ?_
    rw [eval, linear.neg, Int.neg_one_mul]
  | bitNot a ih =>
    obtain ⟨ea, m, operand, scaled, added⟩ := of_linearize_bitNot run
    have negated : m.Represents ops known' (.neg a) :=
      (ih folds.2 operand).scale? scaled fun values => by rw [eval, linear.neg, Int.neg_one_mul]
    refine negated.addConst? added fun values => ?_
    rw [eval, eval, linear.bitNot, linear.neg, Bitwise.not]
    omega
  | binary op a b ihA ihB =>
    obtain ⟨ea, known₁, eb, known₂, left, right, combines⟩ := of_linearize_binary run
    have representsB := ihB (folds.2.2 ea known₁ left) right
    have representsA := (ihA folds.2.1 left).mono (linearize_grows right).1
    cases combines with
    | add same added =>
      refine representsA.addScaled? representsB added fun values => ?_
      rw [eval, same, linear.add, Int.one_mul]
    | sub same subtracted =>
      refine representsA.addScaled? representsB subtracted fun values => ?_
      rw [eval, same, linear.sub, Int.neg_one_mul, Int.sub_eq_add_neg]
    | mulLeft same constant scaled =>
      refine representsB.scale? scaled fun values => ?_
      rw [eval, same, linear.mul, representsA.eval_of_const? constant]
    | mulRight same constant scaled =>
      refine representsA.scale? scaled fun values => ?_
      rw [eval, same, linear.mul, representsB.eval_of_const? constant, Int.mul_comm]
    | fold constantA constantB computed =>
      have folded := folds.here op _ _ _
        ⟨a, b, ea, known₁, eb, _, rfl, left, right, constantA, constantB⟩ computed
      refine .ofConst fun values => ?_
      rw [eval, representsA.eval_of_const? constantA, representsB.eval_of_const? constantB, folded]
    | asOpaque run => exact .opaqueTerm run

end Term

end ProgramAnalysis
