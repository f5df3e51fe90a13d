import ProgramAnalysis.Proofs.PathFormula.Block

/-! Joined paths of a block describe what either path describes, and nothing else. A side holds together
with its equations exactly where the variables have at the common indices the values that they have at
the indices of the side. So each side needs all of its equations, also for the variables that its own map
does not know, and a model of a side gives the same stores as a model of the disjunction. -/
namespace ProgramAnalysis

namespace SsaMap

variable {a b : SsaMap} {x : String}

theorem index?_max (a b : SsaMap) (x : String) :
    (a.max b).index? x = Option.merge Nat.max (a.index? x) (b.index? x) := by
  have found := get?_foldl_max (x := x) b.indices.entries a.indices b.indices.increasing
  have same : b.indices.entries.lookup x = b.index? x := rfl
  rw [same] at found
  refine Eq.trans found ?_
  show _ = Option.merge Nat.max (a.indices.get? x) (b.index? x)
  cases b.index? x <;> cases a.indices.get? x <;> rfl

/-- A variable that stands at different indices is among the differences, also where one of the maps does
not know it. -/
theorem exists_mem_differences (differs : a.index x ≠ b.index x) :
    ∃ d ∈ a.differences b, d.name = x := by
  cases right : b.index? x with
  | some j =>
    have mem : (x, j) ∈ b.indices.entries := NameMap.mem_of_get? right
    have other : a.index? x ≠ some j := by
      intro same
      exact differs (by simp [index, same, right])
    refine ⟨⟨x, a.index? x, some j⟩, List.mem_append_left _ ?_, rfl⟩
    exact List.mem_filterMap.mpr ⟨(x, j), mem, if_neg other⟩
  | none =>
    cases left : a.index? x with
    | none => exact (differs (by simp [index, left, right])).elim
    | some i =>
      have mem : (x, i) ∈ a.indices.entries := NameMap.mem_of_get? left
      have absent : ¬ b.indices.contains x = true := by
        simpa [NameMap.contains, index?] using right
      refine ⟨⟨x, some i, none⟩, List.mem_append_right _ ?_, rfl⟩
      exact List.mem_filterMap.mpr ⟨(x, i), mem, if_neg absent⟩

end SsaMap

namespace PathFormula

variable {ops : Operators} {m : Assignment} {p q : PathFormula} {s ssa : SsaMap} {x : String}

/-! ### The equations of a side -/

theorem mem_lifts {side : Nat × Nat → Nat} (outer : side (p.ssa.index x, q.ssa.index x) <
    Nat.max (p.ssa.index x) (q.ssa.index x)) (differs : p.ssa.index x ≠ q.ssa.index x) :
    .equals (.indexed x (Nat.max (p.ssa.index x) (q.ssa.index x)))
      (.indexed x (side (p.ssa.index x, q.ssa.index x))) ∈ lifts p q side := by
  obtain ⟨d, mem, rfl⟩ := SsaMap.exists_mem_differences differs
  refine List.mem_filterMap.mpr ⟨d, mem, ?_⟩
  have indices : indicesOf d = (p.ssa.index d.name, q.ssa.index d.name) :=
    SsaMap.indices_of_mem_differences mem
  simp only [indices, lift?]
  exact if_pos outer

/-- The equations of a side hold where each variable keeps its value from the index of the side up to the
common one. -/
theorem lifts_hold_iff {side : Nat × Nat → Nat} (positiveP : p.ssa.Positive)
    (positiveQ : q.ssa.Positive)
    (own : ∀ x, side (p.ssa.index x, q.ssa.index x) = ssa.index x)
    (either : ∀ x, ssa.index x = p.ssa.index x ∨ ssa.index x = q.ssa.index x) :
    (∀ f ∈ lifts p q side, f.holds ops m = true) ↔
      m.store (p.ssa.max q.ssa) = m.store ssa := by
  have common (x : String) : (p.ssa.max q.ssa).index x = Nat.max (p.ssa.index x) (q.ssa.index x) :=
    SsaMap.index_max positiveP positiveQ
  constructor
  · intro hold
    funext x
    rw [Assignment.store, Assignment.store, common]
    -- A variable that is at the common index already needs no equation.
    by_cases level : ssa.index x = Nat.max (p.ssa.index x) (q.ssa.index x)
    · rw [level]
    · have within : ssa.index x ≤ Nat.max (p.ssa.index x) (q.ssa.index x) := by
        rcases either x with same | same <;> rw [same]
        · exact Nat.le_max_left _ _
        · exact Nat.le_max_right _ _
      have lower := Nat.lt_of_le_of_ne within level
      have differs : p.ssa.index x ≠ q.ssa.index x := by
        intro same
        have here : ssa.index x = p.ssa.index x := (either x).elim id fun right => right.trans same.symm
        refine level (here.trans ?_)
        rw [← same]
        exact (Nat.max_self _).symm
      have outer := own x ▸ lower
      have equation := hold _ (mem_lifts outer differs)
      rw [own, Formula.holds_equals] at equation
      exact equation
  · intro same f mem
    obtain ⟨x, -, rfl⟩ := of_mem_lifts mem
    rw [own, Formula.holds_equals, ← common]
    exact congrFun same x

theorem holds_merge_left_iff (positiveP : p.ssa.Positive) (positiveQ : q.ssa.Positive) :
    (p.merge q).left.holds ops m = true ↔
      p.formula.holds ops m = true ∧ m.store (p.ssa.max q.ssa) = p.store m := by
  rw [merge_left, Formula.holds_conj, List.forall_mem_cons]
  refine and_congr_right fun _ => ?_
  exact lifts_hold_iff positiveP positiveQ (fun _ => rfl) fun _ => .inl rfl

theorem holds_merge_right_iff (positiveP : p.ssa.Positive) (positiveQ : q.ssa.Positive) :
    (p.merge q).right.holds ops m = true ↔
      q.formula.holds ops m = true ∧ m.store (p.ssa.max q.ssa) = q.store m := by
  rw [merge_right, Formula.holds_conj, List.forall_mem_cons]
  refine and_congr_right fun _ => ?_
  exact lifts_hold_iff positiveP positiveQ (fun _ => rfl) fun _ => .inr rfl

/-- A model of the disjunction is a model of a side that has its store at the common indices. -/
theorem holds_disj_iff (positiveP : p.ssa.Positive) (positiveQ : q.ssa.Positive) :
    (p.disj q).formula.holds ops m = true ↔
      (p.formula.holds ops m = true ∧ (p.disj q).store m = p.store m) ∨
        (q.formula.holds ops m = true ∧ (p.disj q).store m = q.store m) := by
  rw [disj, Formula.holds_disj]
  simp only [List.mem_cons, List.not_mem_nil, or_false, exists_eq_or_imp, exists_eq_left]
  exact or_congr (holds_merge_left_iff positiveP positiveQ) (holds_merge_right_iff positiveP positiveQ)

/-! ### What a path describes -/

/-- The stores at the beginning of the block and at the end of the path, in the models of the path. -/
def transitions (ops : Operators) (s : SsaMap) (p : PathFormula) : Set (Store × Store) :=
  {r | ∃ m : Assignment, p.formula.holds ops m = true ∧ (m.store s, p.store m) = r}

/-- What a path describes, a model describes that reads the end of the path at any later indices too. -/
theorem Follows.exists_held {r : Store × Store} (follows : p.Follows s) (le : p.ssa.Le ssa)
    (mem : r ∈ p.transitions ops s) : ∃ m : Assignment, p.formula.holds ops m = true ∧
      m.store ssa = p.store m ∧ (m.store s, m.store ssa) = r := by
  obtain ⟨m, holds, rfl⟩ := mem
  have held {t : SsaMap} (later : p.ssa.Le t) : (m.hold p.ssa).store t = p.store m :=
    ((m.at_store p.ssa).hold later).eq_store.symm
  refine ⟨m.hold p.ssa, (Assignment.holds_hold follows.within).trans holds, ?_, ?_⟩
  · exact (held le).trans (held (.refl _)).symm
  · refine Prod.ext (funext fun x => ?_) (held le)
    exact (m.agrees_hold p.ssa ⟨x, some (s.index x)⟩ ⟨_, rfl, follows.le x⟩).symm

theorem mem_transitions_restart {before after : Store} :
    (before, after) ∈ p.restart.transitions ops p.ssa ↔ after = before := by
  constructor
  · rintro ⟨m, -, same⟩
    obtain ⟨rfl, rfl⟩ := Prod.mk.inj same
    rfl
  · rintro rfl
    exact ⟨⟨fun x => after x.name, fun _ => false⟩, rfl, rfl⟩

/-- An edge of which formulas say everything is one step more. -/
theorem mem_transitions_extend {edge : Edge} {before after : Store} (made : p.Made)
    (le : s.Le p.ssa) (given : ∀ f, edge.action ≠ .result f none) (exact : edge.action.Exact)
    (extended : (p.extend edge).run = .ok (.ok q)) : (before, after) ∈ q.transitions ops s ↔
      ∃ mid, (before, mid) ∈ p.transitions ops s ∧ edge.action.Acts (.unbounded ops) mid after := by
  obtain ⟨-, forth, back⟩ := extend_exact ops made given extended
  constructor
  · rintro ⟨m, holds, same⟩
    obtain ⟨rfl, rfl⟩ := Prod.mk.inj same
    obtain ⟨earlier, acts⟩ := back m holds
    exact ⟨p.store m, ⟨m, earlier, rfl⟩, acts exact⟩
  · rintro ⟨mid, ⟨m, holds, same⟩, acts⟩
    obtain ⟨rfl, rfl⟩ := Prod.mk.inj same
    obtain ⟨m', agrees, -, holds', rfl⟩ := forth m after holds acts
    refine ⟨m', holds', congrArg (·, q.store m') (funext fun x => ?_)⟩
    exact (agrees ⟨x, some (s.index x)⟩ ⟨_, rfl, le x⟩).symm

theorem of_extend_assign {source target : Point} {x : String} {e : Expr} (fits : e.Fits)
    (exact : e.Exact) (extended : (empty.extend (.assign source target x e)).run = .ok (.ok q)) :
    q.Follows .empty ∧ ∀ ops before after, (before, after) ∈ q.transitions ops .empty ↔
      before.Assigns x (e.Evaluates (.unbounded ops)) after := by
  have given : ∀ f, (Edge.assign source target x e).action ≠ .result f none := by
    intro f same
    cases same
  have expressions {good : Expr → Prop} (var : good (.var x)) (value : good e) :
      ∀ e' ∈ (Edge.assign source target x e).action.expressions, good e' :=
    List.forall_mem_cons.mpr ⟨var, List.forall_mem_singleton.mpr value⟩
  constructor
  · exact (follows_restart empty).extend SsaMap.positive_empty (expressions trivial fits) q extended
  · intro ops before after
    refine Iff.trans (mem_transitions_extend .empty (.refl _) given ?_ extended) ?_
    · exact expressions (.inl trivial) exact
    constructor
    · rintro ⟨mid, start, acts⟩
      obtain rfl := (mem_transitions_restart (p := empty)).mp start
      exact (Action.acts_assign_iff mid after).mp acts
    · intro assigns
      exact ⟨before, (mem_transitions_restart (p := empty)).mpr rfl,
        (Action.acts_assign_iff before after).mpr assigns⟩

/-- The disjunction of two paths of a block stands at the larger index of every variable and at no index
that it has not reached. Under all meanings of the operators it describes the stores at the beginning of
the block and at the end that one of the paths describes. -/
theorem transitions_disj (positive : s.Positive) (followsP : p.Follows s) (followsQ : q.Follows s) :
    (∀ ops, (p.disj q).transitions ops s = p.transitions ops s ∪ q.transitions ops s) ∧
      (∀ x, (p.disj q).ssa.index? x = Option.merge Nat.max (p.ssa.index? x) (q.ssa.index? x) ∧
        (p.disj q).ssa.index x = Nat.max (p.ssa.index x) (q.ssa.index x)) ∧
      (p.disj q).Follows s := by
  have positiveP := followsP.positive positive
  have positiveQ := followsQ.positive positive
  refine ⟨fun ops => ?_, fun x => ⟨SsaMap.index?_max p.ssa q.ssa x, ?_⟩,
    followsP.disj followsQ positive⟩
  · ext r
    constructor
    · rintro ⟨m, holds, rfl⟩
      rcases (holds_disj_iff positiveP positiveQ).mp holds with ⟨side, same⟩ | ⟨side, same⟩
      · exact .inl ⟨m, side, by rw [same]⟩
      · exact .inr ⟨m, side, by rw [same]⟩
    · rintro (mem | mem)
      · obtain ⟨m, holds, same, rfl⟩ := followsP.exists_held (SsaMap.le_max_left positiveP positiveQ) mem
        exact ⟨m, (holds_disj_iff positiveP positiveQ).mpr (.inl ⟨holds, same⟩), rfl⟩
      · obtain ⟨m, holds, same, rfl⟩ := followsQ.exists_held (SsaMap.le_max_right positiveP positiveQ) mem
        exact ⟨m, (holds_disj_iff positiveP positiveQ).mpr (.inr ⟨holds, same⟩), rfl⟩
  · exact SsaMap.index_max positiveP positiveQ

/-- Two ways through a block, `x = 1` and `y = 2`. Neither index map knows the variable of the other. -/
theorem transitions_disj_twoWays : ∃ p q : PathFormula,
    (empty.extend (.assign ⟨0⟩ ⟨1⟩ "x" (.const 1))).run = .ok (.ok p) ∧
    (empty.extend (.assign ⟨0⟩ ⟨1⟩ "y" (.const 2))).run = .ok (.ok q) ∧
    ∀ before after, (before, after) ∈ (p.disj q).transitions .standard .empty ↔
      after = before.set "x" 1 ∨ after = before.set "y" 2 := by
  have runs : ∃ p q : PathFormula,
      (empty.extend (.assign ⟨0⟩ ⟨1⟩ "x" (.const 1))).run = .ok (.ok p) ∧
      (empty.extend (.assign ⟨0⟩ ⟨1⟩ "y" (.const 2))).run = .ok (.ok q) := ⟨_, _, rfl, rfl⟩
  obtain ⟨p, q, first, second⟩ := runs
  obtain ⟨followsP, describesP⟩ := of_extend_assign (by rfl) (.inl (by trivial)) first
  obtain ⟨followsQ, describesQ⟩ := of_extend_assign (by rfl) (.inl (by trivial)) second
  have constant {x : String} {c : Int} {before after : Store} :
      before.Assigns x ((Expr.const c).Evaluates (.unbounded .standard)) after ↔
        after = before.set x c := by
    constructor
    · rintro ⟨v, value, rfl⟩
      cases value
      rfl
    · rintro rfl
      exact ⟨c, .const c, rfl⟩
  refine ⟨p, q, first, second, fun before after => ?_⟩
  rw [(transitions_disj SsaMap.positive_empty followsP followsQ).1, Set.mem_union, describesP,
    describesQ, constant, constant]

end PathFormula

end ProgramAnalysis
