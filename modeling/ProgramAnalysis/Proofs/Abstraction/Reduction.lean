import ProgramAnalysis.Proofs.Abstraction.Views

/-! Reduction of an abstraction to fewer predicates, and its expansion by what the abstraction says
without others. A reduced region is a projection. Both projections follow from the region, so the expanded
region does, and if the region falls apart into a part for each projection then nothing is lost. -/
namespace ProgramAnalysis

open Attempt (Ensures)
open Diagram (Cofactor OnlyOn)
open ProgramAnalysis.Valuation (Ignores Projection quantifyAll)
open Region (ForgetNeeds)

namespace Registry

variable {reg reg' : Registry} {d d₀ e : Diagram} {q : Region} {ps qs : List Predicate}
  {S : (Valuation → Bool) → Prop}

def markerVars (reg : Registry) (ps : List Predicate) : List Nat :=
  ps.map fun p => reg.diagram.var p.marker.ref

theorem Valid.markerVars_grows (valid : reg.Valid) (grown : reg.Grows reg')
    (known : ∀ p ∈ ps, p ∈ reg.predicates) : reg'.markerVars ps = reg.markerVars ps :=
  List.map_congr_left fun p mem => grown.diagram.nodes.var_eq (valid.marks p (known p mem)).has

theorem mem_markerVars_iff (same : ∀ p, p ∈ ps ↔ p ∈ qs) (x : Nat) :
    x ∈ reg.markerVars ps ↔ x ∈ reg.markerVars qs := by
  simp only [markerVars, List.mem_map, same]

theorem Decides.covered (decides : reg.Decides (reg.diagram.eval · q.ref)) (valid : reg.Valid)
    (has : reg.diagram.Has q.ref) (x : Nat) (tests : reg.diagram.Tests q.ref x) :
    ∃ p ∈ reg.predicates, reg.diagram.var p.marker.ref = x := by
  by_contra! other
  obtain ⟨v, differs⟩ := tests.depends valid.diagram.ordered has
  apply differs
  apply decides
  intro p mem
  rw [Function.update_of_ne (other p mem), Function.update_of_ne (other p mem)]

namespace Made

theorem valid (made : reg.Made d q) (valid : reg.Valid) : Valid ⟨d, reg.predicates⟩ :=
  valid.grows made.grows

theorem rebase (made : reg.Made reg'.diagram q) (valid : reg.Valid)
    (same : reg'.predicates = reg.predicates) : reg'.Made reg'.diagram q := by
  obtain ⟨d, predicates⟩ := reg'
  cases same
  exact ⟨.refl (made.valid valid), made.has, made.decides⟩

theorem exists_toFormula (made : reg.Made d q) (valid : reg.Valid) :
    ∃ f, toFormula ⟨d, reg.predicates⟩ q = .ok f :=
  Registry.exists_toFormula (made.decides.covered (made.valid valid) made.has)

theorem forget_gives (made : reg.Made d q) (valid : reg.Valid) (known : ∀ p ∈ ps, p ∈ reg.predicates)
    (begun : d₀.Builds S d)
    (needs : ∀ k, ForgetNeeds (reg.markerVars ps) (d.eval · q.ref) k → S k) :
    Checked.Ensures (Abstractor.forget q ps) d (d₀.Exhausts S) fun r e =>
      (d.Gives e r.ref (quantifyAll (reg.markerVars ps) (d.eval · q.ref)) ∧ d₀.Builds S e) ∧
        reg.Made e r := by
  have validD := made.valid valid
  have names := valid.markerVars_grows made.grows known
  rw [← names] at needs ⊢
  exact (Region.forget_ensures begun (fun p mem => validD.marks p (known p mem)) made.has
    (fun _ => rfl) needs).and (made.forget valid ps)

end Made

end Registry

namespace Abstractor

variable {a b : Abstractor} {x y r : Abstraction} {q : Region} {ps remove relevant : List Predicate}

theorem ofRegion_succeeds (valid : a.registry.Valid) (made : a.registry.Made a.registry.diagram q)
    (s : SsaMap) (block : PathFormula) :
    Ensures (ofRegion q s block) a (fun _ => False) (fun _ _ => False) fun r b =>
      b = a ∧ r.region = q := by
  obtain ⟨f, formula⟩ := made.exists_toFormula valid
  unfold ofRegion
  rw [Attempt.ensures_bind, Attempt.ensures_get, Attempt.ensures_bind,
    Attempt.ensures_ofOutcome_lift]
  constructor
  · exact fun _ _ => ⟨rfl, rfl⟩
  · intro v failed
    cases formula.symm.trans failed

/-- A reduction needs nodes for what is left of the region. -/
def ReduceNeeds (a : Abstractor) (x : Abstraction) (ps : List Predicate) :
    (Valuation → Bool) → Prop :=
  ForgetNeeds (a.registry.markerVars ps) (a.registry.diagram.eval · x.region.ref)

def expandedTo (a : Abstractor) (x y : Abstraction) (ps : List Predicate) (v : Valuation) : Bool :=
  a.registry.diagram.eval v x.region.ref &&
    quantifyAll (a.registry.markerVars ps) (a.registry.diagram.eval · y.region.ref) v

/-- An expansion needs nodes for what is left of the region that it brings back, and for the result. -/
def ExpandNeeds (a : Abstractor) (x y : Abstraction) (ps : List Predicate) (k : Valuation → Bool) :
    Prop :=
  a.ReduceNeeds y ps k ∨ Cofactor (a.expandedTo x y ps) k

theorem reduce_gives (valid : a.registry.Valid) (made : a.registry.Made a.registry.diagram x.region)
    (known : ∀ p ∈ ps, p ∈ a.registry.predicates) (s : SsaMap) :
    Ensures (reduce x ps s) a (a.registry.diagram.Exhausts (a.ReduceNeeds x ps)) (fun _ _ => False)
      fun r b =>
        b.registry.predicates = a.registry.predicates ∧
        b.registry.Made b.registry.diagram r.region ∧
        a.registry.diagram.Gives b.registry.diagram r.region.ref
          (quantifyAll (a.registry.markerVars ps) (a.registry.diagram.eval · x.region.ref)) := by
  unfold reduce
  rw [Attempt.ensures_bind, regionsOnly_ensures]
  apply (made.forget_gives valid known (.refl valid.diagram) fun _ => id).mono
  rintro q d ⟨⟨gives, -⟩, madeQ⟩
  have here : (a.withDiagram d).registry.Made d q := madeQ.rebase valid rfl
  apply ((ofRegion_succeeds (madeQ.valid valid) here s x.block).weaken fun _ => False.elim).mono
  rintro r b ⟨rfl, rfl⟩
  exact ⟨rfl, here, gives⟩

theorem expand_gives (valid : a.registry.Valid) (madeX : a.registry.Made a.registry.diagram x.region)
    (madeY : a.registry.Made a.registry.diagram y.region)
    (known : ∀ p ∈ ps, p ∈ a.registry.predicates) (s : SsaMap) :
    Ensures (expand x y ps s) a (a.registry.diagram.Exhausts (a.ExpandNeeds x y ps))
      (fun _ _ => False) fun r b =>
        a.registry.diagram.Gives b.registry.diagram r.region.ref (a.expandedTo x y ps) := by
  unfold expand expandRegion
  rw [Attempt.ensures_bind, regionsOnly_ensures]
  apply (madeY.forget_gives valid known (.refl valid.diagram) fun _ => .inl).mono
  rintro kept d ⟨⟨keeps, builds⟩, madeKept⟩
  have madeX' := madeX.mono valid keeps.grows
  have together (v : Valuation) : (d.eval v x.region.ref && d.eval v kept.ref) =
      a.expandedTo x y ps v := by
    rw [keeps.grows.nodes.eval_valid valid.diagram madeX.has, keeps.eval, expandedTo]
  rw [Attempt.ensures_bind, regionsOnly_ensures]
  apply (Region.and_ensures builds madeX'.has madeKept.has together fun _ => .inr).mono
  rintro q e ⟨gives, -⟩
  have madeQ := madeX'.and madeKept valid (gives.imp fun v => (together v).symm)
  have here : (a.withDiagram e).registry.Made e q := madeQ.rebase valid rfl
  apply ((ofRegion_succeeds (madeQ.valid valid) here s x.block).weaken fun _ => False.elim).mono
  rintro r b ⟨rfl, rfl⟩
  exact gives.after keeps.grows fun _ => rfl

/-- For every region over predicates, as those of consistent abstractions are: reduction is projection,
the region entails what it is reduced and then expanded to, and it comes back if it is a conjunction of a
part without the removed and a part without the relevant predicates. Each of the calls returns an
abstraction unless its nodes are more than there are numbers for. -/
theorem reduce_and_expand_project (valid : a.registry.Valid)
    (made : a.registry.Made a.registry.diagram x.region)
    (removes : ∀ p ∈ remove, p ∈ a.registry.predicates)
    (relevants : ∀ p ∈ relevant, p ∈ a.registry.predicates) (s : SsaMap) :
    Ensures (reduce x remove s) a (a.registry.diagram.Exhausts (a.ReduceNeeds x remove))
      (fun _ _ => False) fun r b =>
      Projection (a.registry.markerVars remove) (a.registry.diagram.eval · x.region.ref)
        (b.registry.diagram.eval · r.region.ref) ∧
      (∀ remove' s', (∀ p, p ∈ remove' ↔ p ∈ remove) →
        Ensures (reduce x remove' s') b (b.registry.diagram.Exhausts (b.ReduceNeeds x remove'))
          (fun _ _ => False) fun r' _ => r'.region = r.region) ∧
      ∀ s', Ensures (expand r x relevant s') b
        (b.registry.diagram.Exhausts (b.ExpandNeeds r x relevant)) (fun _ _ => False) fun y c =>
        (∀ v, a.registry.diagram.eval v x.region.ref = true →
          c.registry.diagram.eval v y.region.ref = true) ∧
        ∀ f g, Ignores f (a.registry.markerVars remove) → Ignores g (a.registry.markerVars relevant) →
          (∀ v, a.registry.diagram.eval v x.region.ref = (f v && g v)) → y.region = x.region := by
  apply (reduce_gives valid made removes s).mono
  intro r b ⟨predicates, madeR, gives⟩
  have grown : a.registry.Grows b.registry := ⟨predicates, gives.grows⟩
  have validB := valid.grows grown
  have madeX := (made.mono valid gives.grows).rebase valid predicates
  have sameX (v : Valuation) : b.registry.diagram.eval v x.region.ref =
      a.registry.diagram.eval v x.region.ref := gives.grows.nodes.eval_valid valid.diagram made.has v
  have known {ps : List Predicate} (inside : ∀ p ∈ ps, p ∈ a.registry.predicates) :
      ∀ p ∈ ps, p ∈ b.registry.predicates := fun p mem => predicates ▸ inside p mem
  have removed := Valuation.quantifyAll_projection (a.registry.markerVars remove)
    (a.registry.diagram.eval · x.region.ref)
  have kept := Valuation.quantifyAll_projection (a.registry.markerVars relevant)
    (a.registry.diagram.eval · x.region.ref)
  refine ⟨funext gives.eval ▸ removed, ?_, ?_⟩
  -- Another list of the same predicates has the same projection, of which there is only one.
  · intro remove' s' same
    have removes' : ∀ p ∈ remove', p ∈ a.registry.predicates := fun p mem =>
      removes p ((same p).mp mem)
    apply (reduce_gives validB madeX (known removes') s').mono
    intro r' c ⟨_, _, gives'⟩
    have again := Valuation.quantifyAll_projection (a.registry.markerVars remove')
      (a.registry.diagram.eval · x.region.ref)
    rw [valid.markerVars_grows grown removes', funext sameX,
      again.eq removed (Registry.mem_markerVars_iff same)] at gives'
    exact congrArg Region.mk (gives.eq gives' (.refl validB.diagram))
  · intro s'
    apply (expand_gives validB madeR madeX (known relevants) s').mono
    intro y c expanded
    unfold expandedTo at expanded
    simp only [gives.eval, valid.markerVars_grows grown relevants, sameX] at expanded
    constructor
    · intro v holds
      rw [expanded.eval]
      exact removed.entailed_and kept holds
    -- Each part is implied by the projection that keeps its variables.
    · intro f g ignoresF ignoresG parts
      have whole : a.registry.diagram.Gives a.registry.diagram x.region.ref _ :=
        ⟨.refl valid.diagram, made.has, fun _ => rfl⟩
      simp only [removed.and_eq kept ignoresF ignoresG parts] at expanded
      exact congrArg Region.mk (whole.eq expanded gives.grows)

theorem ReduceNeeds.onlyOn {vars : Finset Nat} {k : Valuation → Bool} (needs : a.ReduceNeeds x ps k)
    (only : ∀ r, OnlyOn vars (a.registry.diagram.eval · r)) : OnlyOn vars k :=
  ForgetNeeds.onlyOn needs (only x.region.ref)

theorem ExpandNeeds.onlyOn {vars : Finset Nat} {k : Valuation → Bool} (needs : a.ExpandNeeds x y ps k)
    (only : ∀ r, OnlyOn vars (a.registry.diagram.eval · r)) : OnlyOn vars k := by
  rcases needs with needs | of
  · exact needs.onlyOn only
  · have kept := Valuation.quantifyAll_onlyOn (only y.region.ref) (a.registry.markerVars ps)
    exact OnlyOn.cofactor (fun v w same => congrArg₂ and (only x.region.ref v w same)
      (kept v w same)) of

theorem ReduceNeeds.not_exhausts (valid : a.registry.diagram.Valid) (few : a.registry.diagram.vars ≤ 4)
    (v : Violation) : ¬ a.registry.diagram.Exhausts (a.ReduceNeeds x ps) v :=
  valid.not_exhausts few fun _ needs => needs.onlyOn fun r => valid.onlyOn le_rfl r

theorem ExpandNeeds.not_exhausts (valid : a.registry.diagram.Valid) (few : a.registry.diagram.vars ≤ 4)
    (v : Violation) : ¬ a.registry.diagram.Exhausts (a.ExpandNeeds x y ps) v :=
  valid.not_exhausts few fun _ needs => needs.onlyOn fun r => valid.onlyOn le_rfl r

/-- An abstraction by `x < 5` and `y = 0` is reduced to what it says without the first, and expanded to
what it was. -/
theorem reduce_and_expand_both : ∃ (a : Abstractor) (p q : Predicate) (x : Abstraction),
    p ∈ a.registry.predicates ∧ p.atom = .atom .lt (.symbolic "x") (.const 5) ∧
    q ∈ a.registry.predicates ∧ q.atom = .atom .eq (.symbolic "y") (.const 0) ∧
    (∀ v, a.registry.diagram.eval v x.region.ref = (v (a.registry.diagram.var p.marker.ref) &&
      v (a.registry.diagram.var q.marker.ref))) ∧
    ∃ r b, (reduce x [p, p] .empty).run a = .ok (.ok r, b) ∧ r.region = q.marker ∧
      (∃ r' c, (reduce x [p] .empty).run b = .ok (.ok r', c) ∧ r'.region = q.marker) ∧
      ∃ y c, (expand r x [q] .empty).run b = .ok (.ok y, c) ∧ y.region = x.region := by
  obtain ⟨reg, p, q, both, valid, memP, memQ, apart, atomP, atomQ, has, eval, vars⟩ :=
    Registry.exists_both (.atom .lt (.symbolic "x") (.const 5)) (.atom .eq (.symbolic "y") (.const 0))
      (by decide)
  have marksQ := valid.marks q memQ
  let a : Abstractor := ⟨reg, ⟨{}, {}⟩, ⟨{}, {}⟩, {}, {}⟩
  let x : Abstraction := ⟨both, .conj [p.atom, q.atom],
    .conj [p.atom.instantiate .empty, q.atom.instantiate .empty], .empty⟩
  let m : Nat := reg.diagram.var p.marker.ref
  let n : Nat := reg.diagram.var q.marker.ref
  have differ : n ≠ m := fun same => apart (valid.separate p memP q memQ same.symm)
  have made : a.registry.Made a.registry.diagram x.region := by
    refine ⟨.refl valid, has, fun v w agree => ?_⟩
    have same : reg.diagram.eval v both.ref = reg.diagram.eval w both.ref := by
      rw [eval, eval, agree p memP, agree q memQ]
    exact same
  have twice : ∀ t ∈ [p, p], t ∈ a.registry.predicates := by simpa using memP
  have once : ∀ t ∈ [q], t ∈ a.registry.predicates := by simpa using memQ
  have few : a.registry.diagram.vars ≤ 4 := Nat.le_trans vars (by decide)
  obtain ⟨r, b, run, projection, again, expands⟩ :=
    ((reduce_and_expand_project valid made twice once .empty).weaken
      (ReduceNeeds.not_exhausts valid.diagram few)).exists_run
  obtain ⟨-, -, gives⟩ := (reduce_gives valid made twice .empty).of_ok run
  have validB := gives.grows.valid
  have fewB : b.registry.diagram.vars ≤ 4 := gives.grows.vars.trans_le few
  have vars : ∀ t ∈ a.registry.markerVars [p, p], t = m := by simp [Registry.markerVars, m, a]
  have left : Projection (a.registry.markerVars [p, p]) (a.registry.diagram.eval · x.region.ref)
      (· n) := by
    rw [show (a.registry.diagram.eval · x.region.ref) = fun v => v m && v n from funext eval]
    exact Valuation.projection_and differ vars (by simp [Registry.markerVars, m, a])
  have same := projection.eq left fun _ => Iff.rfl
  have result : r.region = q.marker := by
    have marked := marksQ.grows valid.diagram gives.grows.nodes
    apply marked.isVariable.eq_of_eval validB gives.has
    rw [gives.grows.nodes.var_eq marksQ.has]
    exact congrFun same
  obtain ⟨r', c, run', result'⟩ :=
    ((again [p] .empty (by simp)).weaken (ReduceNeeds.not_exhausts validB fewB)).exists_run
  obtain ⟨y, e, back, -, restores⟩ :=
    ((expands .empty).weaken (ExpandNeeds.not_exhausts validB fewB)).exists_run
  refine ⟨a, p, q, x, memP, atomP, memQ, atomQ, eval, r, b, run, result,
    ⟨r', c, run', result'.trans result⟩, y, e, back, ?_⟩
  apply restores (· n) (· m) left.ignores
  · intro i mem v value
    obtain rfl : i = n := by simpa [Registry.markerVars] using mem
    exact Function.update_of_ne differ.symm value v
  · exact fun v => (eval v).trans (Bool.and_comm _ _)

end Abstractor

end ProgramAnalysis
