import ProgramAnalysis.Formula.Meaning

/-! What the builders make of formulas in normal form is in normal form again. A connective collects its
arguments one at a time, and the collected arguments are fit for the connective after each of them: they
are distinct, no constants, and nothing that would have been unfolded. -/
namespace ProgramAnalysis

namespace Formula

/-- True and false do not occur, and there is nothing that the builders would simplify. -/
inductive Proper : Formula → Prop
  | prop (x : String) : Proper (.prop x)
  | atom {r : Relation} {a b : Term} (free : a.const? = none ∨ b.const? = none) :
      Proper (.atom r a b)
  | not {f : Formula} (single : ∀ g, f ≠ .not g) (inner : Proper f) : Proper (.not f)
  | nary {c : Connective} {fs : List Formula} (several : 2 ≤ fs.length) (distinct : fs.Nodup)
      (flat : ∀ f ∈ fs, ∀ gs, f ≠ .nary c gs) (inner : ∀ f ∈ fs, Proper f) : Proper (.nary c fs)
  | iff {a b : Formula} (distinct : a ≠ b) (left : Proper a) (right : Proper b) : Proper (.iff a b)

/-- True and false occur only as whole formulas. -/
def Normal (f : Formula) : Prop := (∃ v, f = .bool v) ∨ f.Proper

variable {c : Connective} {acc fs gs : List Formula} {f a b : Formula}

theorem normal_bool (v : Bool) : (Formula.bool v).Normal := .inl ⟨v, rfl⟩

theorem Proper.ne_bool (proper : f.Proper) (v : Bool) : f ≠ .bool v := by
  rintro rfl
  cases proper

theorem Normal.proper (normal : f.Normal) (varies : ∀ v, f ≠ .bool v) : f.Proper := by
  rcases normal with ⟨v, constant⟩ | proper
  · exact absurd constant (varies v)
  · exact proper

/-! ### Arguments -/

/-- What a connective may be applied to, unless there are too few. -/
structure Arguments (c : Connective) (fs : List Formula) : Prop where
  distinct : fs.Nodup
  flat : ∀ f ∈ fs, ∀ gs, f ≠ .nary c gs
  proper : ∀ f ∈ fs, f.Proper

theorem Arguments.add (args : Arguments c acc) (flat : ∀ gs, f ≠ .nary c gs) (proper : f.Proper) :
    Arguments c (addNew acc f) := by
  have distinct : (addNew acc f).Nodup := by
    unfold addNew
    split
    · exact args.distinct
    · rename_i new
      rw [List.contains_iff_mem] at new
      rw [List.nodup_append]
      refine ⟨args.distinct, by simp, ?_⟩
      rintro g old _ last rfl
      exact new (List.mem_singleton.mp last ▸ old)
  refine ⟨distinct, ?_, ?_⟩
  · intro g mem
    rcases mem_addNew.mp mem with old | rfl
    · exact args.flat g old
    · exact flat
  · intro g mem
    rcases mem_addNew.mp mem with old | rfl
    · exact args.proper g old
    · exact proper

theorem Arguments.addAll (args : Arguments c acc) (flat : ∀ f ∈ fs, ∀ gs, f ≠ .nary c gs)
    (proper : ∀ f ∈ fs, f.Proper) : Arguments c (fs.foldl addNew acc) := by
  induction fs generalizing acc with
  | nil => exact args
  | cons f fs ih =>
    obtain ⟨flatHere, flatRest⟩ := List.forall_mem_cons.mp flat
    obtain ⟨properHere, properRest⟩ := List.forall_mem_cons.mp proper
    exact ih (args.add flatHere properHere) flatRest properRest

theorem collect_cons (varies : ∀ v, f ≠ .bool v) (flat : ∀ gs, f ≠ .nary c gs) :
    collect c acc (f :: fs) = collect c (addNew acc f) fs := by
  cases f with
  | bool v => exact absurd rfl (varies v)
  | nary c' gs =>
    have other : c' ≠ c := by
      rintro rfl
      exact flat gs rfl
    rw [collect, if_neg other]
  | prop x => rfl
  | atom r s t => rfl
  | not f => rfl
  | iff a b => rfl

theorem Arguments.collected (args : Arguments c acc) (normal : ∀ f ∈ fs, f.Normal)
    (collected : collect c acc fs = some gs) : Arguments c gs := by
  induction fs generalizing acc with
  | nil =>
    cases collected
    exact args
  | cons f fs ih =>
    obtain ⟨here, rest⟩ := List.forall_mem_cons.mp normal
    rcases here with ⟨v, rfl⟩ | proper
    · rw [collect] at collected
      split at collected
      · exact ih args rest collected
      · cases collected
    · by_cases nested : ∃ hs, f = .nary c hs
      · obtain ⟨hs, rfl⟩ := nested
        rw [collect, if_pos rfl] at collected
        cases proper with
        | nary several distinct flat inner => exact ih (args.addAll flat inner) rest collected
      · have flat := not_exists.mp nested
        rw [collect_cons proper.ne_bool flat] at collected
        exact ih (args.add flat proper) rest collected

/-! ### Builders -/

theorem normal_join (normal : ∀ f ∈ fs, f.Normal) : (join c fs).Normal := by
  have start : Arguments c [] := ⟨.nil, nofun, nofun⟩
  unfold join
  cases found : collect c [] fs with
  | none => exact normal_bool _
  | some gs =>
    have args := start.collected normal found
    match gs, args with
    | [], _ => exact normal_bool _
    | [f], args => exact .inr (args.proper f List.mem_cons_self)
    | f :: g :: gs, args =>
      exact .inr (.nary (by simp) args.distinct args.flat args.proper)

theorem normal_negate (normal : f.Normal) : f.negate.Normal := by
  unfold negate
  split
  · exact normal_bool _
  · cases normal.proper nofun with
    | not single inner => exact .inr inner
  · rename_i varies single
    exact .inr (.not single (normal.proper varies))

theorem normal_equiv (left : a.Normal) (right : b.Normal) : (equiv a b).Normal := by
  unfold equiv
  split
  · exact normal_bool _
  · rename_i distinct
    split
    · exact right
    · exact left
    · exact normal_negate right
    · exact normal_negate left
    · rename_i leftTrue rightTrue leftFalse rightFalse
      have variesLeft (v : Bool) : a ≠ .bool v := by
        cases v <;> assumption
      have variesRight (v : Bool) : b ≠ .bool v := by
        cases v <;> assumption
      exact .inr (.iff distinct (left.proper variesLeft) (right.proper variesRight))

theorem normal_compare (r : Relation) (s t : Term) : (compare r s t).Normal := by
  unfold compare
  split
  · exact normal_bool _
  · rename_i varies
    refine .inr (.atom ?_)
    cases left : s.const? with
    | none => exact .inl rfl
    | some x =>
      cases right : t.const? with
      | none => exact .inr rfl
      | some y => exact (varies x y left right).elim

/-- A formula in normal form that is true when its meaning is. -/
structure Expresses (f : Formula) (meaning : Operators → Assignment → Prop) : Prop where
  normal : f.Normal
  holds : ∀ ops m, f.holds ops m = true ↔ meaning ops m

theorem expresses_negate (normal : f.Normal) :
    f.negate.Expresses fun ops m => ¬ f.holds ops m = true :=
  ⟨normal_negate normal, fun ops m => by simp⟩

theorem expresses_conj (normal : ∀ f ∈ fs, f.Normal) :
    (conj fs).Expresses fun ops m => ∀ f ∈ fs, f.holds ops m = true :=
  ⟨normal_join normal, fun _ _ => holds_conj⟩

theorem expresses_disj (normal : ∀ f ∈ fs, f.Normal) :
    (disj fs).Expresses fun ops m => ∃ f ∈ fs, f.holds ops m = true :=
  ⟨normal_join normal, fun _ _ => holds_disj⟩

theorem expresses_equiv (left : a.Normal) (right : b.Normal) :
    (equiv a b).Expresses fun ops m => a.holds ops m = true ↔ b.holds ops m = true :=
  ⟨normal_equiv left right, fun ops m => by
    rw [holds_equiv, beq_iff_eq, Bool.eq_iff_iff]⟩

theorem expresses_compare (r : Relation) (s t : Term) {meaning : Int → Int → Prop}
    (means : ∀ x y, r.holds x y = true ↔ meaning x y) : (compare r s t).Expresses fun ops m =>
      meaning (s.eval ops m.number) (t.eval ops m.number) :=
  ⟨normal_compare r s t, fun ops m => by rw [holds_compare, means]⟩

/-- The builders have the meaning of the connectives and comparisons that they are named for, and what
they make of formulas in normal form is in normal form. -/
theorem builders_express :
    (∀ f : Formula, f.Normal → f.negate.Expresses fun ops m => ¬ f.holds ops m = true) ∧
    (∀ fs : List Formula, (∀ f ∈ fs, f.Normal) →
      ((conj fs).Expresses fun ops m => ∀ f ∈ fs, f.holds ops m = true) ∧
      (disj fs).Expresses fun ops m => ∃ f ∈ fs, f.holds ops m = true) ∧
    (∀ a b : Formula, a.Normal → b.Normal →
      ((conj [a, b]).Expresses fun ops m => a.holds ops m = true ∧ b.holds ops m = true) ∧
      ((disj [a, b]).Expresses fun ops m => a.holds ops m = true ∨ b.holds ops m = true) ∧
      (equiv a b).Expresses fun ops m => a.holds ops m = true ↔ b.holds ops m = true) ∧
    ∀ s t : Term,
      ((equals s t).Expresses fun ops m => s.eval ops m.number = t.eval ops m.number) ∧
      ((atMost s t).Expresses fun ops m => s.eval ops m.number ≤ t.eval ops m.number) ∧
      ((lessThan s t).Expresses fun ops m => s.eval ops m.number < t.eval ops m.number) ∧
      ((greaterThan s t).Expresses fun ops m => s.eval ops m.number > t.eval ops m.number) ∧
      (atLeast s t).Expresses fun ops m => s.eval ops m.number ≥ t.eval ops m.number := by
  refine ⟨fun f => expresses_negate, fun fs normal => ⟨expresses_conj normal, expresses_disj normal⟩,
    ?_, ?_⟩
  · intro a b left right
    have both : ∀ f ∈ [a, b], f.Normal := by simp [left, right]
    refine ⟨?_, ?_, expresses_equiv left right⟩
    · simpa using expresses_conj both
    · simpa using expresses_disj both
  · intro s t
    have equal := expresses_compare .eq s t fun x y => decide_eq_true_iff
    have atMost (s t : Term) := expresses_compare .le s t fun x y => decide_eq_true_iff
    have less (s t : Term) := expresses_compare .lt s t fun x y => decide_eq_true_iff
    exact ⟨equal, atMost s t, less s t, less t s, atMost t s⟩

/-- A nested conjunction is unfolded, and what is left of it is there already. -/
theorem builders_express_nested :
    (∀ f ∈ [.nary .and [.prop "p", .not (.prop "q")], .bool true, .prop "p"], Normal f) ∧
    conj [.nary .and [.prop "p", .not (.prop "q")], .bool true, .prop "p"] =
      .nary .and [.prop "p", .not (.prop "q")] ∧
    Normal (conj [.nary .and [.prop "p", .not (.prop "q")], .bool true, .prop "p"]) := by
  have negated : Proper (.not (.prop "q")) := .not nofun (.prop "q")
  have nested : Proper (.nary .and [.prop "p", .not (.prop "q")]) := by
    apply Proper.nary (by decide) (by decide) <;> simp [negated, Proper.prop]
  have normal : ∀ f ∈ [.nary .and [.prop "p", .not (.prop "q")], .bool true, .prop "p"],
      Normal f := by
    simp [Normal, nested, Proper.prop]
  exact ⟨normal, by decide, (builders_express.2.1 _ normal).1.normal⟩

end Formula

end ProgramAnalysis
