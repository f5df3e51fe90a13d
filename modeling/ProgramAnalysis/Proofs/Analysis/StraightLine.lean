import ProgramAnalysis.Proofs.Analysis.Explicit
import ProgramAnalysis.Proofs.PathFormula.Strongest

/-! Known values beside path formulas. Both follow the same edges, one by a map of values and the other by
indices. As long as no result is left out, a known value is the one that the models of the path give to
the variable at its latest index. A result that is left out is 0 among the known values, while the path
formula keeps what was in its variable. -/
namespace ProgramAnalysis

namespace Expr

variable {ops : Operators} {e : Expr}

/-- Built from variables and constants by operators that mean the same for all integers. -/
def Polynomial : Expr → Prop
  | .var _ | .const _ => True
  | .neg a => a.Polynomial
  | .arith op a b => op ∈ [ArithOp.add, .sub, .mul] ∧ a.Polynomial ∧ b.Polynomial
  | .nondet | .deref _ | .not _ | .bitNot _ | .compare .. | .logic .. => False

theorem Polynomial.arithmetic (polynomial : e.Polynomial) : e.Arithmetic := by
  induction e with
  | var | const => trivial
  | neg a ih => exact ih polynomial
  | arith op a b ihA ihB => exact ⟨ihA polynomial.2.1, ihB polynomial.2.2⟩
  | _ => exact polynomial.elim

theorem Polynomial.exact (polynomial : e.Polynomial) : e.Exact := by
  have said := polynomial.arithmetic
  cases e with
  | var | const | neg | arith => exact .inl said
  | _ => exact polynomial.elim

theorem Polynomial.faithful (integral : ops.Integral) (polynomial : e.Polynomial) :
    e.Faithful (.unbounded ops) := by
  induction e with
  | var | const => trivial
  | neg a ih =>
    refine ⟨fun x v w result found => ?_, ih polynomial⟩
    rw [(Machine.fits_of_checked found).1, ← integral.neg]
    exact (Option.some.inj result).symm
  | arith op a b ihA ihB =>
    refine ⟨fun x y v w result found => ?_, ihA polynomial.2.1, ihB polynomial.2.2⟩
    have computed : ops.binary op x y = v := Option.some.inj result
    obtain ⟨linear, -⟩ := polynomial
    simp only [List.mem_cons, List.not_mem_nil, or_false] at linear
    rcases linear with rfl | rfl | rfl
    · rw [← computed, integral.add, (Machine.fits_of_checked found).1]
    · rw [← computed, integral.sub, (Machine.fits_of_checked found).1]
    · rw [← computed, integral.mul, (Machine.fits_of_checked found).1]
  | _ => exact polynomial.elim

end Expr

namespace ExplicitState

/-- What is known before an edge, and the path up to it. -/
structure Stop where
  known : ExplicitState
  path : PathFormula
  edge : Edge

/-- The stops on the way from the beginning, where nothing is known, to this state and this path. -/
inductive Walks : List Stop → ExplicitState → PathFormula → Prop
  | start : Walks [] top .empty
  | step {w : List Stop} {st st' : ExplicitState} {p q : PathFormula} {edge : Edge}
      {next : List ExplicitState} (before : Walks w st p) (found : st.successors edge = .ok next)
      (mem : st' ∈ next) (extended : (p.extend edge).run = .ok (.ok q)) :
      Walks (w ++ [⟨st, p, edge⟩]) st' q

namespace Stop

/-- Known values are the ones at the latest indices. -/
def Agrees (m : Assignment) (s : Stop) : Prop := s.known.Contains (s.path.store m)

/-- A result that is left out here is 0 at the latest index of its variable. -/
def LeavesZero (m : Assignment) (s : Stop) : Prop :=
  ∀ f, s.edge.action = .result f none → s.path.store m (resultVar f) = 0

end Stop

variable {ops : Operators} {m : Assignment} {st st' : ExplicitState} {p q : PathFormula} {edge : Edge}
  {next : List ExplicitState} {w : List Stop}

theorem Walks.made (walks : Walks w st p) : p.Made := by
  induction walks with
  | start => exact .empty
  | step _ _ _ extended ih => exact .extend ih extended

theorem Contains.assign_iff {s : Store} {x : String} {v : Int} (holds : st.Contains s) :
    (st.assign x (some v)).Contains s ↔ s x = v := by
  constructor
  · intro learned
    obtain ⟨m, rfl⟩ := holds.known
    exact learned.2 x v ((NameMap.get?_insert m x x v).trans (if_pos rfl))
  · intro same
    refine holds.learn fun w known => ?_
    cases known
    exact same

theorem Contains.successor_left_out {s : Store} {f : String} (left : edge.action = .result f none)
    (holds : st.Contains s) (found : st.successors edge = .ok next) (mem : st' ∈ next) :
    st'.Contains s ↔ s (resultVar f) = 0 := by
  obtain ⟨values, rfl⟩ := holds.known
  simp only [successors, left, after] at found
  cases found
  cases List.mem_singleton.mp mem
  exact holds.assign_iff

/-- One edge more: a model of the path knew the path before, and agreement lasts unless a result that
is not 0 is left out. -/
theorem Contains.extend_iff (exact : edge.action.Exact)
    (faithful : ∀ e ∈ edge.action.expressions, e.Faithful (.unbounded ops)) (made : p.Made)
    (found : st.successors edge = .ok next) (mem : st' ∈ next)
    (extended : (p.extend edge).run = .ok (.ok q)) (holds : q.formula.holds ops m = true) :
    p.formula.holds ops m = true ∧ (st.Contains (p.store m) →
      (st'.Contains (q.store m) ↔ Stop.LeavesZero m ⟨st, p, edge⟩)) := by
  by_cases given : ∀ f, edge.action ≠ .result f none
  · obtain ⟨-, -, before⟩ := PathFormula.extend_exact ops made given extended
    obtain ⟨earlier, acts⟩ := before m holds
    refine ⟨earlier, fun agrees => ⟨fun _ f left => (given f left).elim, fun _ => ?_⟩⟩
    obtain ⟨f, rfl, inside⟩ := successors_contain faithful found agrees (acts exact)
    cases List.mem_singleton.mp mem
    exact inside
  · obtain ⟨f, left⟩ := not_forall_not.mp given
    obtain ⟨formula, ssa⟩ := PathFormula.extend_left_out left q extended
    have same : q.store m = p.store m := by rw [PathFormula.store, ssa, PathFormula.store]
    rw [formula, Formula.holds_conj, List.forall_mem_singleton] at holds
    refine ⟨holds, fun agrees => ?_⟩
    rw [same, agrees.successor_left_out left found mem]
    constructor
    · intro zero g left'
      rw [left] at left'
      cases left'
      exact zero
    · exact fun zero => zero f left

theorem Walks.agrees_iff (walks : Walks w st p) (exact : ∀ s ∈ w, s.edge.action.Exact)
    (faithful : ∀ s ∈ w, ∀ e ∈ s.edge.action.expressions, e.Faithful (.unbounded ops))
    (holds : p.formula.holds ops m = true) :
    (∀ s ∈ w, s.Agrees m) ∧ st.Contains (p.store m) ↔ ∀ s ∈ w, s.LeavesZero m := by
  induction walks with
  | start =>
    have begun : top.Contains (PathFormula.empty.store m) := contains_top _
    simp [begun]
  | @step w st st' p q edge next before found mem extended ih =>
    simp only [List.forall_mem_append, List.forall_mem_singleton] at exact faithful ⊢
    obtain ⟨earlier, last⟩ :=
      Contains.extend_iff exact.2 faithful.2 before.made found mem extended holds
    rw [← ih exact.1 faithful.1 earlier]
    constructor
    · rintro ⟨⟨agree, agrees⟩, now⟩
      exact ⟨⟨agree, agrees⟩, (last agrees).mp now⟩
    · rintro ⟨⟨agree, agrees⟩, zero⟩
      exact ⟨⟨agree, agrees⟩, (last agrees).mpr zero⟩

/-- On straight-line code, the known values agree with a model of the path all along exactly if each result
that is left out is 0 in the model. Without such a result they always agree. -/
theorem Walks.values_agree_iff (integral : ops.Integral) (walks : Walks w st p)
    (polynomial : ∀ s ∈ w, ∀ e ∈ s.edge.action.expressions, e.Polynomial)
    (holds : p.formula.holds ops m = true) :
    (∀ s ∈ w, s.Agrees m) ∧ st.Contains (p.store m) ↔ ∀ s ∈ w, s.LeavesZero m := by
  apply walks.agrees_iff
  · exact fun s mem e here => (polynomial s mem e here).exact
  · exact fun s mem e here => (polynomial s mem e here).faithful integral
  · exact holds

/-- The code `n = 7; return n * n; r = f()`. -/
def squareOfSeven : List Edge :=
  [.assign ⟨0⟩ ⟨1⟩ "n" (.const 7), ⟨⟨1⟩, ⟨2⟩, .result "f" (some (.arith .mul (.var "n") (.var "n")))⟩,
    ⟨⟨2⟩, ⟨3⟩, .resume "f" ⟨1⟩ (some (.var "r"))⟩]

theorem values_agree_square : ∃ w st p, Walks w st p ∧ w.map (·.edge) = squareOfSeven ∧
    st.value? "r" = some 49 ∧ ∀ m, p.formula.holds .standard m = true →
      m.number ⟨"r", some 2⟩ = 49 := by
  have walks : ∃ w st p, Walks w st p ∧ w.map (·.edge) = squareOfSeven ∧
      st.value? "r" = some 49 ∧ p.ssa.index "r" = 2 := by
    refine ⟨_, _, _, .step (.step (.step .start rfl (List.mem_singleton_self _) rfl) rfl
      (List.mem_singleton_self _) rfl) rfl (List.mem_singleton_self _) rfl, rfl, ?_, ?_⟩
    · decide
    · decide
  obtain ⟨w, st, p, walks, edges, known, index⟩ := walks
  refine ⟨w, st, p, walks, edges, known, fun m holds => ?_⟩
  have along : ∀ s ∈ w, s.edge ∈ squareOfSeven := fun s mem => edges ▸ List.mem_map_of_mem mem
  have polynomial : ∀ d ∈ squareOfSeven, ∀ e ∈ d.action.expressions, e.Polynomial := by
    simp [squareOfSeven, Edge.assign, Action.expressions, Expr.Polynomial]
  have given : ∀ d ∈ squareOfSeven, ∀ f, d.action ≠ .result f none := by
    simp [squareOfSeven, Edge.assign]
  have agree := walks.values_agree_iff Operators.integral_standard
    (fun s mem => polynomial s.edge (along s mem)) holds
  have inside := (agree.mpr fun s mem f left => (given s.edge (along s mem) f left).elim).2
  have value : m.number ⟨"r", some (p.ssa.index "r")⟩ = 49 := inside.2 "r" 49 known
  rwa [index] at value

/-- The code `return 5; return` of a function. -/
def fiveThenNothing : List Edge :=
  [⟨⟨0⟩, ⟨1⟩, .result "f" (some (.const 5))⟩, ⟨⟨1⟩, ⟨2⟩, .result "f" none⟩]

/-- The last known result is 0, and the path says 5. -/
theorem result_kept_in_path : ∃ w st p, Walks w st p ∧ w.map (·.edge) = fiveThenNothing ∧
    (∀ s ∈ w, ∀ e ∈ s.edge.action.expressions, e.Polynomial) ∧
    st.value? (resultVar "f") = some 0 ∧ ∃ m, p.formula.holds .standard m = true ∧
      m.number ⟨resultVar "f", some (p.ssa.index (resultVar "f"))⟩ = 5 := by
  refine ⟨_, _, _, .step (.step .start rfl (List.mem_singleton_self _) rfl) rfl
    (List.mem_singleton_self _) rfl, rfl, ?_, ?_, ⟨fun _ => 5, fun _ => false⟩, ?_, rfl⟩
  · simp [Action.expressions, Expr.Polynomial]
  · decide
  · rfl

end ExplicitState

end ProgramAnalysis
