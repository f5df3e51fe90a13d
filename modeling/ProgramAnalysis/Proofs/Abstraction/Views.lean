import ProgramAnalysis.Proofs.Abstraction.Forget
import ProgramAnalysis.Proofs.Abstraction.Models
import ProgramAnalysis.Proofs.Abstraction.Sound
import ProgramAnalysis.Proofs.Formula.Renaming
import ProgramAnalysis.Proofs.Predicate.Translation

/-! The region of an abstraction, its formula and its formula at the end of the block say the same, no
matter which calls made it and what was remembered then. The region is about predicates only, so it has
one value for each choice of their values; this is kept by conjunction and by forgetting predicates. -/
namespace ProgramAnalysis

open Attempt (Ensures)

variable {reg reg' : Registry} {r x y : Abstraction} {ops : Operators} {d e : Diagram}
  {ps : List Predicate} {v w : Valuation}

/-! ### Functions of predicates -/

namespace Registry

/-- Both valuations give the same values to the predicates. -/
def Agree (reg : Registry) (v w : Valuation) : Prop :=
  ∀ p ∈ reg.predicates, v (reg.diagram.var p.marker.ref) = w (reg.diagram.var p.marker.ref)

/-- Nothing but the values of the predicates matters. -/
def Decides (reg : Registry) (m : Valuation → Bool) : Prop :=
  ∀ v w, reg.Agree v w → m v = m w

theorem Agree.of_adds (agree : reg'.Agree v w) (valid : reg.Valid) (adds : reg.Adds reg') :
    reg.Agree v w := by
  intro p mem
  have same := adds.diagram.var_eq (valid.marks p mem).has
  rw [← same]
  exact agree p (adds.predicates.mem mem)

theorem Agree.update (agree : reg.Agree v w) (i : Nat) (b : Bool) :
    reg.Agree (Function.update v i b) (Function.update w i b) := by
  intro p mem
  by_cases here : reg.diagram.var p.marker.ref = i
  · rw [here, Function.update_self, Function.update_self]
  · rw [Function.update_of_ne here, Function.update_of_ne here, agree p mem]

theorem Decides.quantify {m : Valuation → Bool} (decides : reg.Decides m) (i : Nat) :
    reg.Decides (Valuation.quantify i m) := by
  intro v w agree
  unfold Valuation.quantify
  rw [decides _ _ (agree.update i false), decides _ _ (agree.update i true)]

theorem Decides.adds {q : Region} (decides : reg.Decides (reg.diagram.eval · q.ref))
    (valid : reg.Valid) (has : reg.diagram.Has q.ref) (adds : reg.Adds reg') :
    reg'.Decides (reg'.diagram.eval · q.ref) := by
  intro v w agree
  have same := decides v w (agree.of_adds valid adds)
  simp only [adds.diagram.eval_valid valid.diagram has]
  exact same

theorem Decides.holdsIn_adds {q : Region} (decides : reg.Decides (reg.diagram.eval · q.ref))
    (valid : reg.Valid) (has : reg.diagram.Has q.ref) (adds : reg.Adds reg') (ops : Operators)
    (m : Assignment) : reg'.holdsIn ops m q = reg.holdsIn ops m q := by
  unfold holdsIn
  rw [adds.diagram.eval_valid valid.diagram has]
  apply decides
  intro p mem
  rw [valid.valuation_marker mem, ← adds.diagram.var_eq (valid.marks p mem).has,
    adds.valid.valuation_marker (adds.predicates.mem mem)]

end Registry

/-! ### Regions over predicates -/

namespace Registry

/-- A region over the predicates in a grown diagram. -/
structure Made (reg : Registry) (e : Diagram) (q : Region) : Prop where
  grows : reg.Grows ⟨e, reg.predicates⟩
  has : e.Has q.ref
  decides : Decides ⟨e, reg.predicates⟩ (e.eval · q.ref)

namespace Made

variable {q s t : Region}

theorem mono (made : reg.Made d q) (valid : reg.Valid) (grown : d.Grows e) : reg.Made e q := by
  have validD := valid.grows made.grows
  have grows : Grows ⟨d, reg.predicates⟩ ⟨e, reg.predicates⟩ := ⟨rfl, grown⟩
  exact ⟨made.grows.trans grows, grown.has made.has,
    made.decides.adds validD made.has (grows.adds validD)⟩

theorem and (left : reg.Made d q) (right : reg.Made d s) (valid : reg.Valid)
    (gives : d.Gives e t.ref fun v => d.eval v q.ref && d.eval v s.ref) : reg.Made e t := by
  have validD := valid.grows left.grows
  have grows : Grows ⟨d, reg.predicates⟩ ⟨e, reg.predicates⟩ := ⟨rfl, gives.grows⟩
  refine ⟨left.grows.trans grows, gives.has, fun v w agree => ?_⟩
  have agree := agree.of_adds validD (grows.adds validD)
  have sameQ : d.eval v q.ref = d.eval w q.ref := left.decides v w agree
  have sameS : d.eval v s.ref = d.eval w s.ref := right.decides v w agree
  simp only [gives.eval, sameQ, sameS]

theorem existsVar (made : reg.Made d q) (valid : reg.Valid) (p : Predicate) :
    Checked.Ensures (q.existsVar p.marker) d (fun _ => True) fun t e => reg.Made e t := by
  have validD := valid.grows made.grows
  apply (Region.existsVar_ensures validD.diagram validD.vars_le made.has p.marker).mono
  intro t e gives
  have grows : Grows ⟨d, reg.predicates⟩ ⟨e, reg.predicates⟩ := ⟨rfl, gives.grows⟩
  refine ⟨made.grows.trans grows, gives.has, fun v w agree => ?_⟩
  simp only [gives.eval]
  exact made.decides.quantify _ v w (agree.of_adds validD (grows.adds validD))

theorem forget (made : reg.Made d q) (valid : reg.Valid) (ps : List Predicate) :
    Checked.Ensures (Abstractor.forget q ps) d (fun _ => True) fun t e => reg.Made e t :=
  Checked.ensures_foldlM (fun _ q e => reg.Made e q) made fun p _ _ _ made => made.existsVar valid p

end Made

end Registry

theorem Predicate.Marks.eval_eq {p : Predicate} (marks : p.Marks d)
    (same : v (d.var p.marker.ref) = w (d.var p.marker.ref)) :
    d.eval v p.marker.ref = d.eval w p.marker.ref := by
  rw [marks.eval, marks.eval, same]

/-! ### Consistency -/

/-- The region is about predicates, and the formulas say what the region does. -/
structure Abstraction.Consistent (reg : Registry) (r : Abstraction) : Prop where
  means : ∀ ops, r.Means reg ops
  decides : reg.Decides (reg.diagram.eval · r.region.ref)

namespace Abstraction.Consistent

theorem adds (consistent : r.Consistent reg) (valid : reg.Valid) (adds : reg.Adds reg') :
    r.Consistent reg' where
  means ops := by
    obtain ⟨has, within, holds, instantiated⟩ := consistent.means ops
    refine ⟨adds.diagram.has has, within, fun m => ?_, instantiated⟩
    rw [holds, consistent.decides.holdsIn_adds valid has adds]
  decides := consistent.decides.adds valid (consistent.means .standard).has adds

theorem made (consistent : r.Consistent reg) (valid : reg.Valid) : reg.Made reg.diagram r.region :=
  ⟨.refl valid, (consistent.means .standard).has, consistent.decides⟩

theorem constant (reg : Registry) (b : Bool) (path : PathFormula) :
    (if b then Abstraction.top path else .bottom path).Consistent reg := by
  cases b with
  | true =>
    refine ⟨fun ops => ⟨reg.diagram.has_one, trivial, fun m => ?_, rfl⟩, fun v w _ => ?_⟩
    · simp [top, Region.top, Registry.holdsIn, Formula.holds]
    · simp [top, Region.top]
  | false =>
    refine ⟨fun ops => ⟨reg.diagram.has_zero, trivial, fun m => ?_, rfl⟩, fun v w _ => ?_⟩
    · simp [bottom, Region.bottom, Registry.holdsIn, Formula.holds]
    · simp [bottom, Region.bottom]

theorem reinstantiate (consistent : r.Consistent reg) (path : PathFormula) :
    (r.reinstantiate path).Consistent reg where
  means ops :=
    let means := consistent.means ops
    ⟨means.has, means.within, means.holds, rfl⟩
  decides := consistent.decides

theorem of_toFormula {q : Region} {f : Formula} (valid : reg.Valid) (symbolic : reg.Symbolic)
    (has : reg.diagram.Has q.ref) (decides : reg.Decides (reg.diagram.eval · q.ref))
    (made : reg.toFormula q = .ok f) (path : PathFormula) :
    Consistent reg ⟨q, f, f.instantiate path.ssa, path⟩ where
  means _ :=
    have ⟨within, holds⟩ := Registry.toFormula_means valid.diagram.ordered symbolic has made
    ⟨has, within, holds, rfl⟩
  decides := decides

end Abstraction.Consistent

theorem Formula.separates_instantiate (ssa : SsaMap) :
    Separates (TermVar.instantiate ssa) .symbolic := by
  apply separates_of_cancel (h := TermVar.uninstantiate)
  rintro ⟨x, index⟩ none
  cases (none : index = _)
  rfl

theorem Formula.instantiate_conj {fs : List Formula} (within : ∀ f ∈ fs, f.Within .symbolic)
    (ssa : SsaMap) : (conj fs).instantiate ssa = conj (fs.map (instantiate ssa)) :=
  mapVars_join (separates_instantiate ssa) .and within

namespace Abstractor

variable {a b : Abstractor} {path : PathFormula} {base : Abstraction} {q : Region}

/-! ### Computed and remembered -/

theorem Computed.consistent {query : AbstractionQuery} (computed : Computed query path ps a b r)
    (valid : a.registry.Valid) (symbolic : a.registry.Symbolic)
    (known : ∀ p ∈ ps, p ∈ a.registry.predicates) : r.Consistent b.registry := by
  have grown := computed.registry
  have validB := valid.grows grown
  have symbolicB : b.registry.Symbolic := fun p mem => symbolic p (grown.predicates ▸ mem)
  have decides : b.registry.Decides (b.registry.diagram.eval · r.region.ref) := by
    have half {v w : Valuation} (agree : b.registry.Agree v w)
        (inside : b.registry.diagram.eval v r.region.ref = true) :
        b.registry.diagram.eval w r.region.ref = true := by
      rw [computed.reads.eval] at inside ⊢
      refine inside.of_agree fun p mem => ?_
      have marks := valid.marks p (known p mem)
      apply marks.eval_eq
      rw [← grown.diagram.nodes.var_eq marks.has]
      exact agree p (grown.predicates ▸ known p mem)
    intro v w agree
    rw [Bool.eq_iff_iff]
    exact ⟨half agree, half fun p mem => (agree p mem).symm⟩
  have whole := Abstraction.Consistent.of_toFormula validB symbolicB computed.reads.has decides
    computed.formula path
  rw [← computed.instantiated, ← computed.block] at whole
  exact whole

/-- What is known of the abstractor between two calls. -/
structure Orderly (a : Abstractor) : Prop where
  registry : a.registry.Valid
  symbolic : a.registry.Symbolic
  results : ∀ q old, (q, old) ∈ a.memory.results → old.Consistent a.registry

theorem Orderly.adds (orderly : a.Orderly) (adds : a.registry.Adds b.registry)
    (symbolic : b.registry.Symbolic) (results : b.memory.results = a.memory.results) : b.Orderly where
  registry := adds.valid
  symbolic := symbolic
  results q old mem := (orderly.results q old (results ▸ mem)).adds orderly.registry adds

theorem Orderly.grows (orderly : a.Orderly) (grown : a.Grows b)
    (results : b.memory.results = a.memory.results) : b.Orderly :=
  orderly.adds (grown.registry.adds orderly.registry)
    (fun p mem => orderly.symbolic p (grown.registry.predicates ▸ mem)) results

theorem Orderly.quiet (orderly : a.Orderly) (quiet : a.Quiet b) : b.Orderly :=
  orderly.grows quiet.toGrows (by rw [quiet.memory])

/-- The result of a computation, of the memory or of no predicates at all. -/
theorem Built.consistent (built : Built base path ps a b r) (orderly : a.Orderly)
    (known : ∀ p ∈ ps, p ∈ a.registry.predicates) : r.Consistent b.registry := by
  cases built with
  | trivial none quiet top => exact top ▸ .constant b.registry true path
  | remembered some quiet found =>
    have adds := quiet.registry.adds orderly.registry
    unfold recalled? at found
    split at found
    · unfold remembered? at found
      split at found
      · rename_i old here
        cases found
        have before := orderly.results _ old (NameMap.mem_of_lookup here)
        exact (before.adds orderly.registry adds).reinstantiate path
      · split at found
        · cases found
          exact .constant b.registry false path
        · cases found
    · cases found
  | computed some new computed =>
    exact computed.consistent orderly.registry orderly.symbolic fun p mem =>
      known p (mem_of_mem_selected mem)

theorem Built.orderly (built : Built base path ps a b r) (orderly : a.Orderly)
    (known : ∀ p ∈ ps, p ∈ a.registry.predicates) : b.Orderly := by
  have consistent := built.consistent orderly known
  cases built with
  | trivial none quiet top => exact orderly.quiet quiet
  | remembered some quiet found => exact orderly.quiet quiet
  | computed some new computed =>
    have grown := computed.registry
    refine ⟨orderly.registry.grows grown,
      fun p mem => orderly.symbolic p (grown.predicates ▸ mem), fun q old mem => ?_⟩
    have earlier (mem : (q, old) ∈ a.memory.results) : old.Consistent b.registry :=
      (orderly.results q old mem).adds orderly.registry (grown.adds orderly.registry)
    rw [computed.results] at mem
    split at mem
    · rcases List.mem_cons.mp mem with same | mem
      · cases same
        exact consistent
      · exact earlier mem
    · exact earlier mem

/-! ### Combined -/

theorem conjoin_ensures (orderly : a.Orderly) (left : x.Consistent a.registry)
    (right : y.Consistent a.registry) :
    Ensures (conjoin x y) a (fun _ => True) (fun _ b => a.Quiet b) fun r b =>
      a.Quiet b ∧ r.Consistent b.registry := by
  have valid := orderly.registry
  have madeX := left.made valid
  have madeY := right.made valid
  unfold conjoin
  split
  · rename_i block
    rw [Attempt.ensures_bind, regionsOnly_ensures]
    refine (Region.and_gives valid.diagram madeX.has madeY.has).mono fun q e gives => ?_
    have grown : a.registry.Grows (a.withDiagram e).registry := ⟨rfl, gives.grows⟩
    refine ⟨⟨grows_withDiagram gives.grows, rfl⟩, fun ops => ?_, (madeX.and madeY valid gives).decides⟩
    have meansX := left.means ops
    have meansY := right.means ops
    have within : ∀ f ∈ [x.formula, y.formula], f.Within .symbolic := by
      simp [meansX.within, meansY.within]
    refine ⟨gives.has, Formula.within_join within, fun m => ?_, ?_⟩
    · have value := gives.eval ((a.withDiagram e).registry.valuation ops m)
      rw [valid.valuation_grows grown] at value
      rw [Registry.holdsIn, valid.valuation_grows grown]
      refine Eq.trans ?_ value.symm
      simp [Formula.conj, Formula.holdsNary, Connective.combine, Connective.unit, meansX.holds,
        meansY.holds, Registry.holdsIn]
    · rw [Formula.instantiate_conj within]
      simp only [List.map_cons, List.map_nil]
      rw [meansX.instantiated, meansY.instantiated, block]
  · rw [Attempt.ensures_ofOutcome_lift]
    refine ⟨fun _ failed => ?_, fun _ _ => trivial⟩
    cases failed

theorem ofRegion_ensures (orderly : a.Orderly) {e : Diagram} (made : a.registry.Made e q)
    (path : PathFormula) :
    Ensures (ofRegion q path.ssa path) (a.withDiagram e) (fun _ => True) (fun _ b => a.Quiet b)
      fun r b => a.Quiet b ∧ r.Consistent b.registry := by
  have quiet : a.Quiet (a.withDiagram e) := ⟨grows_withDiagram made.grows.diagram, rfl⟩
  unfold ofRegion
  rw [Attempt.ensures_bind, Attempt.ensures_get, Attempt.ensures_bind, Attempt.ensures_ofOutcome_lift]
  refine ⟨fun f toFormula => ⟨quiet, ?_⟩, fun _ _ => trivial⟩
  exact .of_toFormula (orderly.registry.grows made.grows) orderly.symbolic made.has made.decides
    toFormula path

theorem reduce_ensures (orderly : a.Orderly) (consistent : x.Consistent a.registry)
    (ps : List Predicate) :
    Ensures (reduce x ps x.block.ssa) a (fun _ => True) (fun _ b => a.Quiet b) fun r b =>
      a.Quiet b ∧ r.Consistent b.registry := by
  have valid := orderly.registry
  unfold reduce
  rw [Attempt.ensures_bind, regionsOnly_ensures]
  exact ((consistent.made valid).forget valid ps).mono fun _ _ made =>
    ofRegion_ensures orderly made x.block

theorem expand_ensures (orderly : a.Orderly) (left : x.Consistent a.registry)
    (right : y.Consistent a.registry) (ps : List Predicate) :
    Ensures (expand x y ps x.block.ssa) a (fun _ => True) (fun _ b => a.Quiet b) fun r b =>
      a.Quiet b ∧ r.Consistent b.registry := by
  have valid := orderly.registry
  unfold expand expandRegion
  rw [Attempt.ensures_bind, regionsOnly_ensures]
  refine ((right.made valid).forget valid ps).mono fun kept d madeY => ?_
  have madeX := (left.made valid).mono valid madeY.grows.diagram
  rw [Attempt.ensures_bind, regionsOnly_ensures]
  refine (Region.and_gives madeY.grows.diagram.valid madeX.has madeY.has).mono fun q e gives => ?_
  exact ofRegion_ensures orderly (madeX.and madeY valid gives) x.block

/-! ### Histories -/

/-- A call that gives an abstraction. Reduced and expanded abstractions are read at the end of the block of
the first one. -/
inductive Call
  | truth (block : PathFormula)
  | build (base : Abstraction) (path : PathFormula) (ps : List Predicate)
  | conjoin (x y : Abstraction)
  | reduce (x : Abstraction) (ps : List Predicate)
  | expand (x y : Abstraction) (ps : List Predicate)

namespace Call

def run : Call → AbstractorM Abstraction
  | truth block => return .top block
  | build base path ps => Abstractor.build base path ps
  | conjoin x y => Abstractor.conjoin x y
  | reduce x ps => Abstractor.reduce x ps x.block.ssa
  | expand x y ps => Abstractor.expand x y ps x.block.ssa

/-- The abstractions whose views the result depends on. What a path begins in is only assumed by the solver,
so that abstraction may be any. -/
def operands : Call → List Abstraction
  | truth _ | build .. => []
  | conjoin x y | expand x y _ => [x, y]
  | reduce x _ => [x]

def predicates : Call → List Predicate
  | build _ _ ps => ps
  | _ => []

end Call

/-- What a call leaves behind. -/
structure Leaves (a b : Abstractor) : Prop where
  adds : a.registry.Adds b.registry
  orderly : b.Orderly

theorem Quiet.leaves (quiet : a.Quiet b) (orderly : a.Orderly) : a.Leaves b :=
  ⟨quiet.registry.adds orderly.registry, orderly.quiet quiet⟩

theorem Call.ensures (c : Call) (orderly : a.Orderly)
    (operands : ∀ x ∈ c.operands, x.Consistent a.registry)
    (known : ∀ p ∈ c.predicates, p ∈ a.registry.predicates) :
    Ensures c.run a (fun _ => True) (fun _ b => a.Leaves b) fun r b =>
      a.Leaves b ∧ r.Consistent b.registry := by
  have valid := orderly.registry
  cases c with
  | truth block => exact ⟨(Quiet.refl valid).leaves orderly, .constant a.registry true block⟩
  | build base path ps =>
    refine (build_ensures valid known base path).imp (fun r b built => ?_) fun _ b learns => ?_
    · have adds := (built.later valid).registry
      exact ⟨⟨adds, built.orderly orderly known⟩, built.consistent orderly known⟩
    · have grown := learns.toGrows
      exact ⟨grown.registry.adds valid, orderly.grows grown learns.results⟩
  | conjoin x y =>
    obtain ⟨left, rest⟩ := List.forall_mem_cons.mp operands
    have right := List.forall_mem_singleton.mp rest
    exact (conjoin_ensures orderly left right).imp (fun r b made => made.imp_left (·.leaves orderly))
      fun _ b quiet => quiet.leaves orderly
  | reduce x ps =>
    have consistent := operands x (List.mem_singleton_self x)
    exact (reduce_ensures orderly consistent ps).imp
      (fun r b made => made.imp_left (·.leaves orderly)) fun _ b quiet => quiet.leaves orderly
  | expand x y ps =>
    obtain ⟨left, rest⟩ := List.forall_mem_cons.mp operands
    have right := List.forall_mem_singleton.mp rest
    exact (expand_ensures orderly left right ps).imp
      (fun r b made => made.imp_left (·.leaves orderly)) fun _ b quiet => quiet.leaves orderly

/-- Histories of calls, with the abstractions that they gave. Predicates are about variables without an
index, calls may fail, and whatever else happens changes no predicate and no remembered result. -/
inductive Obtains (o : AnalysisOptions) : Abstractor → List Abstraction → Prop
  | start {a : Abstractor} (made : Abstractor.start o = .ok a) : Obtains o a []
  | predicate {a b : Abstractor} {rs : List Abstraction} {atom : Formula} {p : Predicate}
      (before : Obtains o a rs) (symbolic : atom.Within .symbolic)
      (run : (registryOnly (Registry.predicate atom)).run a = .ok (.ok p, b)) : Obtains o b rs
  | call {a b : Abstractor} {rs : List Abstraction} {c : Call} {r : Abstraction}
      (before : Obtains o a rs) (operands : ∀ x ∈ c.operands, x ∈ rs)
      (known : ∀ p ∈ c.predicates, p ∈ a.registry.predicates)
      (run : c.run.run a = .ok (.ok r, b)) : Obtains o b (r :: rs)
  | failed {a b : Abstractor} {rs : List Abstraction} {c : Call} {e : Failure}
      (before : Obtains o a rs) (operands : ∀ x ∈ c.operands, x ∈ rs)
      (known : ∀ p ∈ c.predicates, p ∈ a.registry.predicates)
      (run : c.run.run a = .ok (.error e, b)) : Obtains o b rs
  | other {a b : Abstractor} {rs : List Abstraction} (before : Obtains o a rs) (grown : a.Grows b)
      (results : b.memory.results = a.memory.results) : Obtains o b rs

theorem Orderly.predicate {atom : Formula} {p : Predicate} (orderly : a.Orderly)
    (symbolic : atom.Within .symbolic)
    (run : (registryOnly (Registry.predicate atom)).run a = .ok (.ok p, b)) : a.Leaves b := by
  have added : Ensures (registryOnly (Registry.predicate atom)) a (fun _ => True)
      (fun _ _ => False) fun _ b => a.Leaves b := by
    unfold registryOnly
    rw [Attempt.ensures_lift, Checked.ensures_zoom]
    refine (Registry.predicate_ensures orderly.registry atom).imp
      (fun p reg ⟨⟨adds, _, same, either⟩, _⟩ => ⟨adds, orderly.adds adds (fun q mem => ?_) rfl⟩)
      fun _ _ => trivial
    rcases either q mem with old | ⟨rfl, -⟩
    · exact orderly.symbolic q old
    · exact same ▸ symbolic
  exact added.of_ok run

theorem Obtains.invariant {o : AnalysisOptions} {rs : List Abstraction} (obtains : Obtains o a rs) :
    a.Orderly ∧ ∀ r ∈ rs, r.Consistent a.registry := by
  induction obtains with
  | start made =>
    obtain ⟨registry, empty, made⟩ := Outcome.exists_of_bind made
    cases made
    obtain ⟨d, -, same⟩ := Outcome.exists_of_bind empty
    cases same
    refine ⟨⟨Registry.empty_valid empty, ?_, ?_⟩, by simp⟩
    · exact fun p mem => (List.not_mem_nil mem).elim
    · exact fun q old mem => (List.not_mem_nil mem).elim
  | predicate before symbolic run ih =>
    obtain ⟨orderly, consistent⟩ := ih
    obtain ⟨adds, orderly'⟩ := orderly.predicate symbolic run
    exact ⟨orderly', fun r mem => (consistent r mem).adds orderly.registry adds⟩
  | call before operands known run ih =>
    obtain ⟨orderly, consistent⟩ := ih
    have ensured := Call.ensures _ orderly (fun x mem => consistent x (operands x mem)) known
    obtain ⟨⟨adds, orderly'⟩, new⟩ := Checked.Ensures.of_ok ensured run
    refine ⟨orderly', List.forall_mem_cons.mpr ⟨new, fun r mem => ?_⟩⟩
    exact (consistent r mem).adds orderly.registry adds
  -- A call that fails may still have added predicates.
  | failed before operands known run ih =>
    obtain ⟨orderly, consistent⟩ := ih
    have ensured := Call.ensures _ orderly (fun x mem => consistent x (operands x mem)) known
    obtain ⟨adds, orderly'⟩ := Checked.Ensures.of_ok ensured run
    exact ⟨orderly', fun r mem => (consistent r mem).adds orderly.registry adds⟩
  | other before grown results ih =>
    obtain ⟨orderly, consistent⟩ := ih
    have adds := grown.registry.adds orderly.registry
    exact ⟨orderly.grows grown results, fun r mem => (consistent r mem).adds orderly.registry adds⟩

/-- The three views of an abstraction say the same after every history of calls: the instantiated formula
is the formula at the end of the block, the formula holds for numbers exactly if the region has the
valuation that they give, and the abstraction is called true or false exactly if its region is constant. -/
theorem Obtains.views_agree {o : AnalysisOptions} {rs : List Abstraction} (obtains : Obtains o a rs)
    (mem : r ∈ rs) : r.instantiated = r.formula.instantiate r.block.ssa ∧
      (∀ ops numbers truth v, a.registry.ValuesAt ops numbers v →
        (r.formula.holds ops ⟨numbers, truth⟩ = true ↔
          a.registry.diagram.eval v r.region.ref = true)) ∧
      (r.isTrue = true ↔ ∀ v, a.registry.diagram.eval v r.region.ref = true) ∧
      (r.isFalse = true ↔ ∀ v, a.registry.diagram.eval v r.region.ref = false) := by
  obtain ⟨orderly, consistent⟩ := obtains.invariant
  have consistent := consistent r mem
  have valid := orderly.registry
  have has := (consistent.means .standard).has
  refine ⟨(consistent.means .standard).instantiated, ?_, ?_, ?_⟩
  · intro ops numbers truth v values
    rw [(consistent.means ops).holds, Registry.holdsIn, ← Bool.eq_iff_iff]
    apply consistent.decides
    intro p memP
    rw [valid.valuation_marker memP, values p memP]
    exact Formula.holds_congr p.atom (orderly.symbolic p memP) (fun _ _ => rfl) fun _ none => none.elim
  · exact Region.isTrue_iff valid.diagram has
  · exact Region.isFalse_iff valid.diagram has

theorem conjoin_top (x : Abstraction) : Ensures (conjoin (.top x.block) x) a (fun _ => False)
    (fun _ _ => False) fun r b => r.region = x.region ∧ b.registry = a.registry := by
  unfold conjoin
  rw [if_pos (by rfl), Attempt.ensures_bind, regionsOnly_ensures]
  rw [show (Abstraction.top x.block).region = .top from rfl, Region.top_and]
  exact ⟨rfl, rfl⟩

open Renewed in
/-- The abstraction of a test of `x < 1` is computed, asked for again and conjoined with no abstraction at
all. -/
theorem views_agree_conjoined : ∃ (o : AnalysisOptions) (a : Abstractor) (p : Predicate)
    (r u u' : Abstraction), Obtains o a [r, .top u.block, u, u'] ∧
      p ∈ a.registry.predicates ∧ p.atom = small ∧ r.region = p.marker ∧
      r.instantiated = r.formula.instantiate r.block.ssa ∧
      (∀ ops numbers truth v, a.registry.ValuesAt ops numbers v →
        (r.formula.holds ops ⟨numbers, truth⟩ = true ↔
          a.registry.diagram.eval v r.region.ref = true)) ∧
      (r.isTrue = true ↔ ∀ v, a.registry.diagram.eval v r.region.ref = true) ∧
      (r.isFalse = true ↔ ∀ v, a.registry.diagram.eval v r.region.ref = false) := by
  let o : AnalysisOptions := ⟨{}, {}, {}, {}⟩
  obtain ⟨d, empty, start⟩ := exists_start o
  obtain ⟨p, reg, added, adds, single, id, atom, few⟩ := Registry.exists_predicate empty small
  let a₁ : Abstractor := idle o reg
  have symbolic : small.Within .symbolic := ⟨rfl, show Machine.fits Machine.bound64 1 = true by decide⟩
  have register : (registryOnly (Registry.predicate small)).run (idle o ⟨d, []⟩) = .ok (.ok p, a₁) :=
    registryOnly_run added
  have valid₁ : a₁.registry.Valid := adds.valid
  have known₁ : ∀ q ∈ [p], q ∈ a₁.registry.predicates := by simp [a₁, idle, single]
  have mem₁ := known₁ p (List.mem_singleton_self p)
  have few₁ : a₁.registry.diagram.vars ≤ 4 := Nat.le_trans valid₁.vars_le (Nat.le_trans few (by decide))
  -- The second call finds the result of the first.
  obtain ⟨u', a₂, run₂, -⟩ :=
    (build_returns valid₁ known₁ few₁ (queries_answered_tested rfl id atom)).exists_run
  have built₂ := (build_ensures valid₁ known₁ _ _).of_ok run₂
  have later₂ := built₂.later valid₁
  have known₂ : ∀ q ∈ [p], q ∈ a₂.registry.predicates := fun q mem =>
    later₂.registry.predicates.mem (known₁ q mem)
  have few₂ : a₂.registry.diagram.vars ≤ 4 := built₂.grows.registry.diagram.vars.trans_le few₁
  obtain ⟨u, a₃, run₃, -⟩ := (build_returns later₂.registry.valid known₂ few₂
    (queries_answered_tested built₂.grows.limits id atom)).exists_run
  have built₃ := (build_ensures later₂.registry.valid known₂ _ _).of_ok run₃
  have recalled := built₂.recalled (List.cons_ne_nil p []) rfl rfl rfl
  have first : u'.region = p.marker := region_tested valid₁ mem₁ rfl rfl rfl id atom run₂
  have found : u.region = p.marker := by
    rw [built₃.eq_of_recalled (List.cons_ne_nil p []) recalled]
    exact first
  obtain ⟨r, a₄, run₄, conjoined, same⟩ := (conjoin_top (a := a₃) u).exists_run
  have obtains₁ : Obtains o a₁ [] := .predicate (.start start) symbolic register
  have obtains₂ : Obtains o a₂ [u'] :=
    .call (c := .build _ _ _) obtains₁ (List.forall_mem_nil _) known₁ run₂
  have obtains₃ : Obtains o a₃ [u, u'] :=
    .call (c := .build _ _ _) obtains₂ (List.forall_mem_nil _) known₂ run₃
  have obtains₄ : Obtains o a₃ [.top u.block, u, u'] :=
    .call (c := .truth u.block) obtains₃ (List.forall_mem_nil _) (List.forall_mem_nil _) rfl
  have obtains : Obtains o a₄ [r, .top u.block, u, u'] :=
    .call (c := .conjoin (.top u.block) u) obtains₄ (by simp [Call.operands]) (List.forall_mem_nil _) run₄
  have last : p ∈ a₄.registry.predicates := by
    rw [same]
    exact (built₃.later later₂.registry.valid).registry.predicates.mem
      (known₂ p (List.mem_singleton_self p))
  exact ⟨o, a₄, p, r, u, u', obtains, last, atom, conjoined.trans found,
    obtains.views_agree List.mem_cons_self⟩

end Abstractor

end ProgramAnalysis
