import ProgramAnalysis.Proofs.PathFormula.Merge

/-! Path formulas are strongest postconditions. A path formula stands for the stores that its models
describe at its end. The paths that the operations make speak only of indices that they have reached, so
an edge gives the values after it to indices that are new. -/
namespace ProgramAnalysis

namespace PathFormula

variable {L : Vocabulary} {ops : Operators} {p q : PathFormula} {edge : Edge}

def store (p : PathFormula) (m : Assignment) : Store := m.store p.ssa

/-- The paths that come about from the empty path. What is assumed has no indices. -/
inductive Made : PathFormula → Prop
  | empty : Made .empty
  | extend {p q : PathFormula} {edge : Edge} (made : Made p)
      (extended : (p.extend edge).run = .ok (.ok q)) : Made q
  | assume {p : PathFormula} {f : Formula} (made : Made p) (bare : f.Within Vocabulary.any.bare) :
      Made (p.assume f)
  | disj {p q : PathFormula} (first : Made p) (second : Made q) : Made (p.disj q)
  | restart {p : PathFormula} (made : Made p) : Made p.restart

theorem Indexed.assume {f : Formula} (indexed : p.Indexed L) (bare : f.Within L.bare) :
    (p.assume f).Indexed L :=
  ⟨indexed.positive, Formula.within_pair indexed.within (bare.instantiate p.ssa)⟩

theorem extend_left_out {f : String} (left : edge.action = .result f none) :
    Outcome.Yields (p.extend edge) fun q => q.formula = .conj [p.formula] ∧ q.ssa = p.ssa := by
  apply extend_yields
  rw [left, effect, Outcome.yields_pure]
  exact ⟨rfl, rfl⟩

/-- An edge adds constraints that speak only of indices that it has reached, also when it leaves a
result out. -/
theorem extend_adds (within : ∀ e ∈ edge.action.expressions, e.Within L)
    (bits : ∀ b, L.number (bit b)) (positive : p.ssa.Positive) :
    Outcome.Yields (p.extend edge) fun q => p.ssa.Le q.ssa ∧ ∃ fs : List Formula,
      (∀ f ∈ fs, f.Within (L.upTo q.ssa)) ∧ q.formula = .conj (p.formula :: fs) := by
  by_cases given : ∀ f, edge.action ≠ .result f none
  · apply extend_yields
    have described : Outcome.Yields (effect p.ssa edge.action) fun e => e.Describes
        ⟨id, id, fun _ x _ => x⟩ L p.ssa edge.action.Exact (edge.action.Acts (.unbounded _)) :=
      effect_describes within bits given positive
    exact described.mono fun e described => ⟨described.le, e.constraints, described.within, rfl⟩
  · obtain ⟨f, left⟩ := not_forall_not.mp given
    refine (extend_left_out left).mono fun q found => ?_
    rw [found.2]
    exact ⟨.refl _, [], by simp, found.1⟩

theorem extend_indexed (within : ∀ e ∈ edge.action.expressions, e.Within L)
    (bits : ∀ b, L.number (bit b)) (indexed : p.Indexed L) :
    Outcome.Yields (p.extend edge) fun q => q.Indexed L := by
  refine (extend_adds within bits indexed.positive).mono fun q ⟨le, fs, inside, formula⟩ => ?_
  constructor
  · exact fun x => Nat.le_trans (indexed.positive x) (le x)
  · rw [formula]
    exact Formula.within_join (List.forall_mem_cons.mpr ⟨indexed.within.mono le.widens, inside⟩)

theorem Made.indexed (made : p.Made) : p.Indexed .any := by
  induction made with
  | empty => exact indexed_empty
  | extend _ extended ih =>
    exact extend_indexed (fun e _ => e.within_any) (fun _ => trivial) ih _ extended
  | assume _ bare ih => exact ih.assume bare
  | disj _ _ first second => exact first.disj second
  | restart _ ih => exact ih.restart

/-- After an edge, every variable of the path has an index that it has reached. Every step from the
store of a model ends in the store of a model that only gives values to new indices. Every model is one
of the path before and, if formulas say all of the edge, has a step between its stores. -/
theorem extend_exact (ops : Operators) (made : p.Made) (given : ∀ f, edge.action ≠ .result f none)
    (extended : (p.extend edge).run = .ok (.ok q)) :
    q.formula.Within (Vocabulary.any.upTo q.ssa) ∧
      (∀ m t, p.formula.holds ops m = true → edge.action.Acts (.unbounded ops) (p.store m) t →
        ∃ m', Assignment.Agrees p.ssa m m' ∧ m'.truth = m.truth ∧
          q.formula.holds ops m' = true ∧ q.store m' = t) ∧
      ∀ m, q.formula.holds ops m = true → p.formula.holds ops m = true ∧
        (edge.action.Exact → edge.action.Acts (.unbounded ops) (p.store m) (q.store m)) := by
  have strongest : Strongest ops .any p edge.action q :=
    extend_strongest (fun e _ => e.within_any) (fun _ => trivial) given made.indexed q extended
  refine ⟨strongest.indexed.within, fun m t holds acts => ?_, fun m holds => ⟨?_, ?_⟩⟩
  · obtain ⟨m', prolongs, reads, holds'⟩ := strongest.model (m.at_store p.ssa) holds acts
    exact ⟨m', prolongs.agrees, prolongs.truth, holds', reads.eq_store.symm⟩
  · exact strongest.before m holds
  · exact fun all => strongest.exact all m holds

/-- Negation, complement, and addition for all other operators. -/
def sums : Operators := ⟨fun x => -x, fun x => -x - 1, fun _ x y => x + y⟩

def belowThree : Edge :=
  ⟨⟨0⟩, ⟨1⟩, .assign (.var "x") (.compare .lt (.var "x") (.const 3))⟩

/-- From a store in which all variables are 2. -/
theorem extend_exact_belowThree : ∃ q : PathFormula,
    (empty.extend belowThree).run = .ok (.ok q) ∧
    (∃ m, q.formula.holds sums m = true ∧ q.store m = Store.set (fun _ => 2) "x" 1) ∧
    ∀ m, q.formula.holds sums m = true →
      belowThree.action.Acts (.unbounded sums) (empty.store m) (q.store m) := by
  have extended : ∃ q : PathFormula, (empty.extend belowThree).run = .ok (.ok q) := ⟨_, rfl⟩
  obtain ⟨q, extended⟩ := extended
  have given : ∀ f, belowThree.action ≠ .result f none := by
    intro f same
    cases same
  obtain ⟨-, model, exact⟩ := extend_exact sums .empty given extended
  have said : belowThree.action.Exact := by
    intro e mem
    rcases List.mem_cons.mp mem with rfl | mem
    · exact .inl trivial
    · rw [List.mem_singleton.mp mem]
      exact .inl ⟨trivial, trivial⟩
  have acts : belowThree.action.Acts (.unbounded sums) (fun _ => 2) (Store.set (fun _ => 2) "x" 1) :=
    .assign (.compare (.var "x") (.const 3))
  obtain ⟨m, -, -, holds, store⟩ := model ⟨fun _ => 2, fun _ => false⟩ _ rfl acts
  exact ⟨q, extended, ⟨m, holds, store⟩, fun m holds => (exact m holds).2 said⟩

end PathFormula

end ProgramAnalysis
