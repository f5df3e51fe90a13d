import Mathlib
import ProgramAnalysis.Analysis.Predicate.Transfer
import ProgramAnalysis.Proofs.Abstraction.Coverage
import ProgramAnalysis.Proofs.Abstraction.Models
import ProgramAnalysis.Proofs.Analysis.Parts

/-! The predicate analysis loses no moment of an execution on unbounded integers. A state contains a store
if its abstraction and its path have a model that gives every variable its value at the end of the path. -/
namespace ProgramAnalysis

open Attempt (Ensures)

variable {ops : Operators} {a : Abstractor} {base : Abstraction} {path : PathFormula} {s : Store}
  {o : BlockOptions} {program : Automaton} {π₀ : Precision} {edge : Edge} {registry : Registry}
  {everywhere : List Formula} {atPoint : List (Point × Formula)}

/-- A model of an abstraction and a path that reads the store at the end of the path. -/
def Abstraction.Models (ops : Operators) (base : Abstraction) (path : PathFormula) (s : Store) : Prop :=
  ∃ m : Assignment, base.instantiated.holds ops m = true ∧ path.formula.holds ops m = true ∧
    m.At path.ssa s

namespace PredicateState

variable {st : PredicateState}

def Contains (ops : Operators) (st : PredicateState) (s : Store) : Prop :=
  ∃ base path, st.parts? = some (base, path) ∧ base.Models ops path s

/-- The states of an exploration: the path continues the abstraction, and at the end of a block it is
empty and begins where the block ends. -/
structure Good (ops : Operators) (a : Abstractor) (st : PredicateState) : Prop where
  registry : a.registry.Valid
  parts : ∃ base path, st.parts? = some (base, path) ∧
    Abstractor.Continues a.registry ops base path ∧
    (st.isBoundary = true → path = base.block.restart)

theorem good_inside (valid : a.registry.Valid)
    (continues : Abstractor.Continues a.registry ops base path) :
    (PredicateState.inside base path).Good ops a :=
  ⟨valid, base, path, rfl, continues, nofun⟩

theorem contains_inside : (PredicateState.inside base path).Contains ops s ↔
    base.Models ops path s := by
  constructor
  · rintro ⟨_, _, ⟨⟩, models⟩
    exact models
  · exact fun models => ⟨base, path, rfl, models⟩

theorem contains_boundary : (PredicateState.boundary base path).Contains ops s ↔
    base.Models ops path s := by
  constructor
  · rintro ⟨_, _, ⟨⟩, models⟩
    exact models
  · exact fun models => ⟨base, path, rfl, models⟩

/-- The states after a path contain every store at its end. -/
structure Exhausts (ops : Operators) (base : Abstraction) (path : PathFormula) (a b : Abstractor)
    (next : List PredicateState) : Prop where
  grows : a.Grows b
  good : ∀ st ∈ next, st.Good ops b
  complete : ∀ s, base.Models ops path s → ∃ st ∈ next, st.Contains ops s

theorem exhausts_none {b : Abstractor} (grown : a.Grows b)
    (infeasible : ∀ m, base.instantiated.holds ops m = true → path.formula.holds ops m = false) :
    Exhausts ops base path a b [] := by
  refine ⟨grown, by simp, ?_⟩
  rintro s ⟨m, start, holds, -⟩
  rw [infeasible m start] at holds
  cases holds

theorem exhausts_inside {b : Abstractor} (valid : a.registry.Valid) (grown : a.Grows b)
    (continues : Abstractor.Continues a.registry ops base path) :
    Exhausts ops base path a b [.inside base path] := by
  refine ⟨grown, ?_, fun s models => ⟨_, List.mem_singleton_self _, contains_inside.mpr models⟩⟩
  rw [List.forall_mem_singleton]
  exact good_inside (valid.grows grown.registry) (continues.grows valid grown.registry)

theorem stayInside_exhausts (exact : ops.TwosComplement) (valid : a.registry.Valid)
    (continues : Abstractor.Continues a.registry ops base path) :
    Ensures (stayInside o base path) a (fun _ => True) (fun _ _ => True)
      fun next b => Exhausts ops base path a b next := by
  unfold stayInside
  split
  · rw [Attempt.ensures_bind]
    refine (Abstractor.isInfeasible_sound exact valid continues).mono ?_
    rintro answer b ⟨grown, infeasible⟩
    cases answer with
    | true => exact exhausts_none grown (infeasible rfl)
    | false => exact exhausts_inside valid grown continues
  · exact exhausts_inside valid (.refl valid) continues

theorem exhausts_boundary {b : Abstractor} {r : Abstraction} (valid : b.registry.Valid)
    (grown : a.Grows b) (wellFormed : path.WellFormed) (means : r.Means b.registry ops)
    (block : r.block = path)
    (inside : ∀ s, base.Models ops path s → b.registry.holdsIn ops s.assignment r.region = true) :
    Exhausts ops base path a b [.boundary r path.restart] := by
  subst block
  refine ⟨grown, ?_, fun s models => ⟨_, List.mem_singleton_self _, contains_boundary.mpr ?_⟩⟩
  · rw [List.forall_mem_singleton]
    exact ⟨valid, r, _, rfl, ⟨means, .refl _, wellFormed.restart⟩, fun _ => rfl⟩
  · have holds := inside s models
    obtain ⟨m, -, -, reads⟩ := models
    exact ⟨m, (means.holds_at reads).trans holds, rfl, reads⟩

theorem endBlock_exhausts (exact : ops.TwosComplement) (wellFormed : a.WellFormed)
    {ps : List Predicate} (known : ∀ p ∈ ps, p ∈ a.registry.predicates)
    (continues : Abstractor.Continues a.registry ops base path) :
    Ensures (endBlock base path ps) a (fun _ => True) (fun _ _ => True)
      fun next b => Exhausts ops base path a b next := by
  have valid := wellFormed.registry
  have built (b : Abstractor) (grown : a.Grows b) :
      Ensures (do
        let r ← Abstractor.build base path ps
        return if r.isFalse then [] else [.boundary r path.restart]) b (fun _ => True)
        (fun _ _ => True) fun next c => Exhausts ops base path a c next := by
    rw [Attempt.ensures_bind]
    refine (Abstractor.build_sound exact (wellFormed.grows grown)
      (fun p mem => grown.registry.predicates ▸ known p mem)
      (continues.grows valid grown.registry)).mono ?_
    rintro r c ⟨more, means, block, inside⟩
    have whole := grown.trans more
    have inRegion (s : Store) (models : base.Models ops path s) :
        c.registry.holdsIn ops s.assignment r.region = true := by
      obtain ⟨m, start, holds, reads⟩ := models
      exact inside m s reads start holds
    rw [Attempt.ensures_pure]
    split
    · rename_i empty
      refine ⟨whole, by simp, fun s models => ?_⟩
      have holds := inRegion s models
      rw [Registry.holdsIn, show r.region.ref = .zero from of_decide_eq_true empty] at holds
      simp at holds
    · exact exhausts_boundary (valid.grows whole.registry) whole continues.wellFormed means block
        inRegion
  unfold endBlock
  split
  · rw [Attempt.ensures_bind]
    refine (Abstractor.isInfeasible_sound exact valid continues).mono ?_
    rintro answer b ⟨grown, infeasible⟩
    cases answer with
    | true => exact exhausts_none grown (infeasible rfl)
    | false => exact built b grown
  · exact built a (.refl valid)

theorem successors_sound (exact : ops.TwosComplement) (wellFormed : a.WellFormed)
    (known : ∀ p ∈ π₀.predicatesAt edge.target, p ∈ a.registry.predicates)
    (encodable : edge.action.Encodable) (good : st.Good ops a) :
    Ensures (successors o program st π₀ edge) a (fun _ => True) (fun _ _ => True) fun next b =>
      a.Grows b ∧ (∀ st' ∈ next, st'.Good ops b) ∧
        ∀ s t, st.Contains ops s → edge.action.Acts (.unbounded ops) s t →
          ∃ st' ∈ next, st'.Contains ops t := by
  obtain ⟨valid, base, path, parts, continues, -⟩ := good
  unfold successors
  simp only [parts]
  rw [Attempt.ensures_bind, Attempt.ensures_ofOutcome]
  refine ⟨fun path' extended => ?_, fun _ _ => trivial, fun _ _ => trivial⟩
  have extends_ : PathFormula.Extends ops path edge.action path' :=
    PathFormula.extend_sound encodable continues.wellFormed _ extended
  have continues' : Abstractor.Continues a.registry ops base path' :=
    ⟨continues.means, continues.le.trans extends_.le, extends_.wellFormed⟩
  have follows (b : Abstractor) (next : List PredicateState)
      (exhausts : Exhausts ops base path' a b next) : a.Grows b ∧ (∀ st' ∈ next, st'.Good ops b) ∧
        ∀ s t, st.Contains ops s → edge.action.Acts (.unbounded ops) s t →
          ∃ st' ∈ next, st'.Contains ops t := by
    refine ⟨exhausts.grows, exhausts.good, ?_⟩
    rintro s t ⟨base', path₀, parts', m, start, holds, reads⟩ acts
    cases parts.symm.trans parts'
    obtain ⟨m', agrees, reads', holds'⟩ := extends_.model reads holds acts
    exact exhausts.complete t
      ⟨m', (continues.holds_agrees agrees).symm.trans start, holds', reads'⟩
  split
  · exact (endBlock_exhausts exact wellFormed known continues').mono fun next b => follows b next
  · exact (stayInside_exhausts exact valid continues').mono fun next b => follows b next

theorem merge_sound {st' : PredicateState} (good : st.Good ops a) (good' : st'.Good ops a) :
    (st.merge st').Good ops a ∧ ∀ s, st'.Contains ops s → (st.merge st').Contains ops s := by
  have kept : st'.Good ops a ∧ ∀ s, st'.Contains ops s → st'.Contains ops s :=
    ⟨good', fun _ => id⟩
  cases st with
  | bottom => exact kept
  | boundary b p => exact kept
  | inside b₁ p =>
    cases st' with
    | bottom => exact kept
    | boundary b q => exact kept
    | inside b₂ q =>
      unfold merge
      simp only
      split
      · obtain ⟨valid, _, _, ⟨⟩, continues₁, -⟩ := good
        obtain ⟨-, _, _, ⟨⟩, continues₂, -⟩ := good'
        have wellFormedP := continues₁.wellFormed
        have wellFormedQ := continues₂.wellFormed
        have later := SsaMap.le_max_right wellFormedP.positive wellFormedQ.positive
        refine ⟨good_inside valid ⟨continues₂.means, continues₂.le.trans later,
          wellFormedP.disj wellFormedQ⟩, fun s contained => contains_inside.mpr ?_⟩
        obtain ⟨m, start, holds, reads⟩ := contains_inside.mp contained
        obtain ⟨m', agrees, reads', holds'⟩ :=
          PathFormula.disj_sound wellFormedP wellFormedQ reads holds
        exact ⟨m', (continues₂.holds_agrees agrees).symm.trans start, holds', reads'⟩
      · exact kept

theorem isBottom_sound (good : st.Good ops a) (bottom : st.isBottom = true) (s : Store) :
    ¬ st.Contains ops s := by
  obtain ⟨valid, base, path, parts, continues, atEnd⟩ := good
  rintro ⟨_, _, parts', m, start, holds, reads⟩
  cases parts.symm.trans parts'
  cases st with
  | bottom => cases parts
  | inside b p => cases bottom
  | boundary b p =>
    cases parts
    have empty := atEnd rfl
    subst empty
    rw [continues.means.holds_at reads, Registry.holdsIn,
      show base.region.ref = .zero from of_decide_eq_true bottom] at start
    simp at start

theorem contains_same {st' : PredicateState} (good : st.Good ops a) (good' : st'.Good ops a)
    (equal : (st == st') = true) {s : Store} (contained : st.Contains ops s) :
    st'.Contains ops s := by
  have same {b₁ b₂ : Abstraction} {p q : PathFormula} (means₁ : b₁.Means a.registry ops)
      (means₂ : b₂.Means a.registry ops) (equal : (b₁ == b₂ && p == q) = true)
      (models : b₁.Models ops p s) : b₂.Models ops q s := by
    obtain ⟨bases, paths⟩ := (Bool.and_eq_true _ _).mp equal
    obtain rfl := eq_of_beq paths
    obtain ⟨m, start, rest⟩ := models
    exact ⟨m, (means₁.holds_same means₂ bases m).symm.trans start, rest⟩
  obtain ⟨-, _, _, parts, continues, -⟩ := good
  obtain ⟨-, _, _, parts', continues', -⟩ := good'
  cases st with
  | bottom => cases parts
  | boundary b p =>
    cases st' with
    | bottom => cases parts'
    | boundary b' q =>
      cases parts
      cases parts'
      exact contains_boundary.mpr (same continues.means continues'.means equal
        (contains_boundary.mp contained))
    | inside b' q => cases equal
  | inside b p =>
    cases st' with
    | bottom => cases parts'
    | boundary b' q => cases equal
    | inside b' q =>
      cases parts
      cases parts'
      exact contains_inside.mpr (same continues.means continues'.means equal
        (contains_inside.mp contained))

theorem isCovered_sound (exact : ops.TwosComplement) {st' : PredicateState} (good : st.Good ops a)
    (good' : st'.Good ops a) :
    Ensures (st.isCovered st') a (fun _ => True) (fun _ _ => True) fun answer b => a.Grows b ∧
      (answer = true → ∀ s, st.Contains ops s → st'.Contains ops s) := by
  have valid := good.registry
  obtain ⟨-, _, _, parts, continues, atEnd⟩ := good
  obtain ⟨-, _, _, parts', continues', atEnd'⟩ := good'
  have refl : a.Grows a := .refl valid
  cases st with
  | bottom => cases parts
  | boundary b p =>
    cases st' with
    | bottom => exact ⟨refl, nofun⟩
    | boundary b' q =>
      cases parts
      cases parts'
      have asked := @Abstractor.covers_sound _ ops _ _ valid continues.means.has continues'.means.has
      refine asked.mono fun answer c ⟨grown, covered⟩ => ⟨grown, fun yes s contained => ?_⟩
      obtain ⟨m, start, -, reads⟩ := contains_boundary.mp contained
      have empty := atEnd rfl
      have empty' := atEnd' rfl
      subst empty empty'
      rw [continues.means.holds_at reads] at start
      refine contains_boundary.mpr ⟨s.assignment, ?_, rfl, s.assignment_at _⟩
      exact (continues'.means.holds_at (s.assignment_at _)).trans (covered yes _ start)
    | inside b' q => exact ⟨refl, nofun⟩
  | inside b p =>
    cases st' with
    | bottom => exact ⟨refl, nofun⟩
    | boundary b' q => exact ⟨refl, nofun⟩
    | inside b' q =>
      cases parts
      cases parts'
      unfold isCovered
      simp only
      split
      · rename_i equal
        refine (Abstractor.pathCovers_sound exact valid continues.wellFormed
          continues'.wellFormed).mono fun answer c ⟨grown, covered⟩ =>
            ⟨grown, fun yes s contained => ?_⟩
        obtain ⟨m, start, holds, reads⟩ := contains_inside.mp contained
        obtain ⟨m', agrees, reads', holds'⟩ := covered yes m s reads holds
        refine contains_inside.mpr ⟨m', ?_, holds', reads'⟩
        rw [← continues.means.holds_same continues'.means equal, ← continues.holds_agrees agrees]
        exact start
      · exact ⟨refl, nofun⟩

/-- A block ends with the abstraction that is built. -/
theorem run_endBlock {r : Abstraction} {p : Predicate} {ps : List Predicate} {b : Abstractor}
    (built : (Abstractor.build base path (p :: ps)).run a = .ok (.ok r, b))
    (possible : r.isFalse = false) :
    (endBlock base path (p :: ps)).run a = .ok (.ok [.boundary r path.restart], b) := by
  rw [endBlock, List.isEmpty_cons, if_neg Bool.false_ne_true]
  simp only []
  rw [Attempt.run_bind_of_ok built, possible]
  rfl

end PredicateState

/-! ### The analysis -/

/-- The predicates of the precision are known. -/
structure Abstractor.Serves (a : Abstractor) (π₀ : Precision) : Prop extends a.WellFormed where
  known : ∀ x, ∀ p ∈ π₀.predicatesAt x, p ∈ a.registry.predicates

/-- The state of abstractions as the analysis uses it: predicates are not added any more. -/
def Abstractor.ambient (π₀ : Precision) : Ambient Abstractor where
  valid a := a.Serves π₀
  grows a b := a.registry.Valid → a.Grows b
  grows_refl _ valid := .refl valid
  grows_trans first second valid :=
    (first valid).trans (second (valid.grows (first valid).registry))

theorem Abstractor.Serves.grows {b : Abstractor} (serves : a.Serves π₀) (grown : a.Grows b) :
    b.Serves π₀ where
  toWellFormed := serves.toWellFormed.grows grown
  known x p mem := grown.registry.predicates ▸ serves.known x p mem

theorem Abstractor.keeps_of_ensures {α : Type} {act : AbstractorM α} {good : α → Abstractor → Prop}
    (serves : a.Serves π₀) (ensures : Ensures act a (fun _ => True) (fun _ _ => True)
      fun r b => a.Grows b ∧ good r b) : (ambient π₀).Keeps act a good :=
  ensures.mono fun _ _ ⟨grown, holds⟩ => ⟨serves.grows grown, fun _ => grown, holds⟩

theorem PredicateState.Good.grows {st : PredicateState} {b : Abstractor} (good : st.Good ops a)
    (grown : a.Grows b) : st.Good ops b := by
  obtain ⟨valid, base, path, parts, continues, atEnd⟩ := good
  exact ⟨valid.grows grown.registry, base, path, parts, continues.grows valid grown.registry, atEnd⟩

theorem PredicateState.initial_sound (serves : a.Serves π₀) :
    initial.Good ops a ∧ ∀ s, initial.Contains ops s := by
  have top : (Abstraction.top .empty).Means a.registry ops :=
    ⟨Diagram.has_one _, trivial, fun m => by simp [Registry.holdsIn, Region.top, Abstraction.top,
      Formula.holds], rfl⟩
  refine ⟨⟨serves.registry, _, _, rfl, ⟨top, .refl _, PathFormula.wellFormed_empty⟩, fun _ => rfl⟩,
    fun s => contains_boundary.mpr ⟨s.assignment, rfl, rfl, s.assignment_at _⟩⟩

theorem Analysis.predicates_sound (exact : ops.TwosComplement)
    (encodable : ∀ edge ∈ program.edges, edge.action.Encodable) :
    (predicates o program).SoundSeen PartKind.toPart (Abstractor.ambient π₀)
      (Part.Contains fun st c => st.Contains ops c.store) (.unbounded ops) program π₀
      fun a st => st.Good ops a where
  good_mono good grown := good.grows (grown good.registry)
  same good good' equal contained := PredicateState.contains_same good good' equal contained
  initial serves := by
    obtain ⟨good, all⟩ := @PredicateState.initial_sound ops _ _ serves
    exact Ambient.keeps_pure serves ⟨good, fun c _ => all c.store⟩
  successors := by
    intro a st edge serves good mem
    refine Abstractor.keeps_of_ensures serves ((PredicateState.successors_sound exact
      serves.toWellFormed (serves.known edge.target) (encodable edge mem) good).mono ?_)
    rintro next b ⟨grown, goodNext, follows⟩
    exact ⟨grown, goodNext, fun c c' contained step => follows _ _ contained step.acts⟩
  strengthen serves _ := Ambient.keeps_pure serves trivial
  merge serves good good' := by
    obtain ⟨goodM, larger⟩ := PredicateState.merge_sound good good'
    exact Ambient.keeps_pure serves ⟨goodM, fun c => larger c.store⟩
  isBottom serves good :=
    Ambient.keeps_pure serves fun bottom c => PredicateState.isBottom_sound good bottom c.store
  covers serves good good' := by
    refine Abstractor.keeps_of_ensures serves
      ((PredicateState.isCovered_sound exact good good').mono ?_)
    exact fun answer b ⟨grown, covered⟩ => ⟨grown, fun yes c => covered yes c.store⟩

/-! ### Precisions -/

namespace Precision

variable {reg : Registry}

theorem predicate_keeps {f : Formula} (within : f.Within .symbolic) (valid : reg.Valid)
    (symbolic : reg.Symbolic) :
    Checked.Ensures (Registry.predicate f) reg (fun _ => True) fun p reg' =>
      (reg'.Valid ∧ reg'.Symbolic) ∧ reg.predicates <+: reg'.predicates ∧ p ∈ reg'.predicates := by
  apply (Registry.predicate_ensures valid f).imp _ fun _ _ => trivial
  rintro p reg' ⟨⟨adds, mem, atom, origin⟩, -⟩
  refine ⟨⟨adds.valid, fun q inside => ?_⟩, adds.predicates, mem⟩
  rcases origin q inside with old | ⟨rfl, -⟩
  · exact symbolic q old
  · exact atom ▸ within

theorem ofAtoms_ensures (valid : reg.Valid) (symbolic : reg.Symbolic)
    (all : ∀ f ∈ everywhere, f.Within .symbolic) (points : ∀ x ∈ atPoint, x.2.Within .symbolic) :
    Checked.Ensures (ofAtoms everywhere atPoint) reg (fun _ => True) fun π reg' =>
      (reg'.Valid ∧ reg'.Symbolic) ∧ ∀ x, ∀ p ∈ π.predicatesAt x, p ∈ reg'.predicates := by
  unfold ofAtoms
  rw [Checked.ensures_bind]
  refine (Checked.ensures_mapM (fun reg => reg.Valid ∧ reg.Symbolic)
    (fun reg reg' => reg.predicates <+: reg'.predicates) (fun p reg => p ∈ reg.predicates)
    (fun _ => List.prefix_refl _) List.IsPrefix.trans (fun mem grown => grown.mem mem)
    ⟨valid, symbolic⟩ fun f mem reg ⟨valid, symbolic⟩ =>
      predicate_keeps (all f mem) valid symbolic).mono ?_
  rintro ps reg₁ ⟨kept, -, known⟩
  rw [Checked.ensures_bind]
  refine (Checked.ensures_mapM (fun reg => reg.Valid ∧ reg.Symbolic)
    (fun reg reg' => reg.predicates <+: reg'.predicates) (fun x reg => x.2 ∈ reg.predicates)
    (fun _ => List.prefix_refl _) List.IsPrefix.trans (fun mem grown => grown.mem mem)
    kept fun x mem reg ⟨valid, symbolic⟩ => ?_).mono ?_
  · rintro qs reg₂ ⟨kept, grown, knownAt⟩
    refine ⟨kept, fun x p mem => ?_⟩
    have mem := List.mem_eraseDups.mp (List.mem_mergeSort.mp mem)
    rcases List.mem_append.mp mem with mem | mem
    · exact grown.mem (known p mem)
    · obtain ⟨q, inside, rfl⟩ := List.mem_map.mp mem
      exact knownAt q (List.mem_of_mem_filter inside)
  · obtain ⟨at_, f⟩ := x
    rw [Checked.ensures_bind]
    exact predicate_keeps (points _ mem) valid symbolic

end Precision

theorem Abstractor.start_serves {o : AnalysisOptions}
    (uncached : o.abstraction.useCache = false) (begun : start o = .ok a)
    (everywhereSymbolic : ∀ f ∈ everywhere, f.Within .symbolic)
    (atPointSymbolic : ∀ x ∈ atPoint, x.2.Within .symbolic)
    (chosen : Precision.ofAtoms everywhere atPoint a.registry = .ok (π₀, registry)) :
    { a with registry := registry }.Serves π₀ := by
  obtain ⟨empty, made, begun⟩ := Outcome.exists_of_bind begun
  cases begun
  have none : empty.Symbolic := by
    obtain ⟨d, -, made⟩ := Outcome.exists_of_bind made
    cases made
    exact List.forall_mem_nil _
  obtain ⟨⟨valid, symbolic⟩, known⟩ := (Precision.ofAtoms_ensures (Registry.empty_valid made) none
    everywhereSymbolic atPointSymbolic).of_ok chosen
  exact ⟨⟨valid, symbolic, uncached⟩, known⟩

theorem Abstractor.exists_ofAtoms (o : AnalysisOptions) (atom : Formula) : ∃ d p reg,
    start o = .ok (idle o ⟨d, []⟩) ∧ Precision.ofAtoms [atom] [] ⟨d, []⟩ = .ok (⟨[p], []⟩, reg) ∧
    reg.Valid ∧ reg.predicates = [p] ∧ p.id = 0 ∧ p.atom = atom ∧ p.marker = ⟨.node 2⟩ ∧
    reg.diagram.vars ≤ 1 := by
  obtain ⟨d, empty, begun⟩ := exists_start o
  obtain ⟨p, reg, added, adds, single, id, same, few⟩ := Registry.exists_predicate empty atom
  have chosen : Precision.ofAtoms [atom] [] ⟨d, []⟩ = .ok (⟨[p], []⟩, reg) := by
    unfold Precision.ofAtoms
    simp only [List.mapM_cons, List.mapM_nil, bind_assoc, pure_bind]
    exact Checked.run_bind_of_ok added
  exact ⟨d, p, reg, begun, chosen, adds.valid, single, id, same,
    (Registry.predicate_first empty atom).of_ok added, Nat.le_trans adds.valid.vars_le few⟩

namespace Composite

def ofPredicates (o : BlockOptions) (program : Automaton) (specialized : Bool) :
    Composite Abstractor Precision :=
  ⟨[Analysis.locations.onParts, (Analysis.predicates o program).onParts], specialized⟩

theorem ofComponents_predicates (o : BlockOptions) (program : Automaton) (specialized : Bool) :
    ofComponents [Analysis.locations.onParts, (Analysis.predicates o program).onParts] specialized =
      .ok (ofPredicates o program specialized) := rfl

/-- Every execution on unbounded integers ends in a reached state at its point and with its pending
calls, whose abstraction and path have a model that reads the values of the variables. -/
theorem ofPredicates_sound (exact : ops.TwosComplement)
    (encodable : ∀ edge ∈ program.edges, edge.action.Encodable) (o : AnalysisOptions)
    (uncached : o.abstraction.useCache = false) (specialized divided : Bool)
    (limit made checks : Nat) (begun : Abstractor.start o = .ok a)
    (everywhereSymbolic : ∀ f ∈ everywhere, f.Within .symbolic)
    (atPointSymbolic : ∀ x ∈ atPoint, x.2.Within .symbolic)
    (chosen : Precision.ofAtoms everywhere atPoint a.registry = .ok (π₀, registry))
    {store : CompositeStore Abstractor} {r : ReachedSet CompositeState Precision}
    {report : RunReport} {y : Exploration (CompositeStore Abstractor) CompositeState Precision}
    (started : ((ofPredicates o.block program specialized).analysis.start program divided π₀).run
      ⟨{ a with registry := registry }, made + 1, checks⟩ = .ok (.ok r, store))
    (ran : ((ofPredicates o.block program specialized).analysis.run program limit).run ⟨store, r⟩ =
      .ok (.ok report, y))
    (complete : report.incomplete = false) {c : Config}
    (reached : Config.Reached (.unbounded ops) program c) :
    ∃ e ∈ y.reached.statesAt c.point, e.stack = c.stack ∧
      ∃ here st, e.parts = [here, .predicate st] ∧ st.Contains ops c.store := by
  let abstracts : PredicateState → Config → Prop := fun st c => st.Contains ops c.store
  let first : SoundComponent (Abstractor.ambient π₀) (Part.Contains abstracts) (.unbounded ops)
      program π₀ := (Analysis.locations_sound abstracts).component
  let second : SoundComponent (Abstractor.ambient π₀) (Part.Contains abstracts) (.unbounded ops)
      program π₀ := (Analysis.predicates_sound (o := o.block) exact encodable).component
  have serves : (ambient (Abstractor.ambient π₀)).valid
      ⟨{ a with registry := registry }, made + 1, checks⟩ :=
    ⟨Abstractor.start_serves uncached begun everywhereSymbolic atPointSymbolic chosen,
      Nat.le_add_left 1 made⟩
  have locates : first.Locates := Analysis.locates abstracts
  have components : (ofPredicates o.block program specialized).components =
    [first, second].map (·.component) := rfl
  obtain ⟨e, mem, stack, -, good, all⟩ := exists_state_of_reached components locates
    serves started ran complete reached
  obtain ⟨here, ps, -, goodPs, parts⟩ := List.forall₂_cons_left_iff.mp good
  obtain ⟨p, rest, ⟨st, rfl, -⟩, none, rfl⟩ := List.forall₂_cons_left_iff.mp goodPs
  cases none
  have holds := all (.predicate st) (parts ▸ List.mem_cons_of_mem _ List.mem_cons_self)
  exact ⟨e, mem, stack, here, st, parts, holds⟩

/-! ### A block with two ends

After a test of `x < 1`, where a block ends and the predicate `x < 1` is computed, another test is taken
or not; the paths of both are merged. -/

open Abstractor (build_returns build_ensures)
open Abstractor.Renewed (small test tested extend_test queries_answered_tested region_tested)

def tests : Automaton where
  points := 3
  edges := [test, ⟨⟨1⟩, ⟨2⟩, .assume (.compare .lt (.var "x") (.const 0)) true⟩, ⟨⟨1⟩, ⟨2⟩, .skip⟩]
  entries := .empty
  loopHeads := [⟨1⟩]
  entry := ⟨0⟩
  edges_inside := by decide

theorem encodable_tests : ∀ edge ∈ tests.edges, edge.action.Encodable := by
  simp only [tests, test, List.forall_mem_cons]
  refine ⟨⟨?_, nofun⟩, ⟨?_, nofun⟩, ⟨nofun, nofun⟩, List.forall_mem_nil _⟩
  · simp [Action.expressions, Expr.Fits]
    decide
  · simp [Action.expressions, Expr.Fits]
    decide

theorem reached_tests (ops : Operators) (s : Store) (less : s "x" < 1) :
    Config.Reached (.unbounded ops) tests ⟨⟨2⟩, s, .empty⟩ := by
  have start : Config.Reached (.unbounded ops) tests ⟨⟨0⟩, s, .empty⟩ :=
    .start ⟨rfl, fun _ => trivial, rfl⟩
  have holds : (bit (Comparison.lt.holds (s "x") 1) != 0) = true := by
    rw [bit_ne_zero]
    exact decide_eq_true less
  have middle : Config.Reached (.unbounded ops) tests ⟨⟨1⟩, s, .empty⟩ :=
    start.step List.mem_cons_self
      ⟨rfl, rfl, .assume (.compare (.var "x") (.const 1)) holds, .assume⟩
  exact middle.step (show (⟨⟨1⟩, ⟨2⟩, .skip⟩ : Edge) ∈ tests.edges by simp [tests])
    ⟨rfl, rfl, .skip, .skip⟩

/-- The block that the test ends has the predicate as its abstraction. -/
theorem exists_run_successors {p : Predicate} (valid : a.registry.Valid)
    (known : p ∈ a.registry.predicates) (few : a.registry.diagram.vars ≤ 4)
    (limits : a.solver.limits = {}) (new : a.recalled? (.top .empty) tested [p] = none)
    (verdicts : a.memory.verdicts = []) (id : p.id = 0) (atom : p.atom = small)
    (marker : p.marker = ⟨.node 2⟩) : ∃ f g b,
    (PredicateState.initial.successors ⟨.loopHeads, false⟩ tests ⟨[p], []⟩ test).run a =
      .ok (.ok [.boundary ⟨⟨.node 2⟩, f, g, tested⟩ tested.restart], b) := by
  have knows := List.forall_mem_singleton.mpr known
  obtain ⟨⟨region, f, g, block⟩, b, run, -⟩ :=
    (build_returns valid knows few (queries_answered_tested limits id atom)).exists_run
  obtain rfl : region = ⟨.node 2⟩ :=
    (region_tested valid known limits new verdicts id atom run).trans marker
  have built := (build_ensures valid knows _ _).of_ok run
  obtain rfl : block = tested := (built.computed_of_new (List.cons_ne_nil p []) new).block
  have extended : (Attempt.ofOutcome (PathFormula.empty.extend test) : AbstractorM _).run a =
    .ok (.ok tested, a) := rfl
  have start : PredicateState.initial.parts? = some (.top .empty, .empty) := rfl
  have here : (⟨[p], []⟩ : Precision).predicatesAt test.target = [p] := by
    simp [Precision.predicatesAt, Predicate.inOrder, List.eraseDups_cons]
  refine ⟨f, g, b, ?_⟩
  rw [PredicateState.successors, start]
  simp only []
  rw [Attempt.run_bind_of_ok extended, if_pos (by decide), here]
  exact PredicateState.run_endBlock run rfl

/-- The successors of the first point are what `act` says. -/
def opened (act : PredicateState → Precision → Edge → AbstractorM (List PredicateState)) :
    Composite Abstractor Precision :=
  ⟨[Analysis.locations.onParts, Analysis.onParts { Analysis.predicates ⟨.loopHeads, false⟩ tests with
    successors := fun st π edge => if edge.source = ⟨0⟩ then act st π edge else
      st.successors ⟨.loopHeads, false⟩ tests π edge }], true⟩

theorem opened_successors : opened (PredicateState.successors ⟨.loopHeads, false⟩ tests) =
    ofPredicates ⟨.loopHeads, false⟩ tests true := by
  unfold opened ofPredicates
  simp only [ite_self]
  rfl

/-- Nothing but the first point is reached. -/
def beginning (π₀ : Precision) : ReachedSet CompositeState Precision :=
  (ReachedSet.empty true).add ⟨1, [.location (.point ⟨0⟩), .predicate .initial], .empty⟩ π₀

/-- The states at the last point after a complete run with one merge. -/
def last? (ran : Except Violation (Except Failure RunReport ×
    Exploration (CompositeStore Abstractor) CompositeState Precision)) : Option (List (List Part)) :=
  match ran with
  | .ok (.ok report, y) =>
    if report.incomplete = false ∧ report.counters.merges = 1 then
      some ((y.reached.statesAt ⟨2⟩).map (·.parts))
    else none
  | _ => none

theorem exists_of_last? {ran : Except Violation (Except Failure RunReport ×
    Exploration (CompositeStore Abstractor) CompositeState Precision)} {states : List (List Part)}
    (found : last? ran = some states) : ∃ report y, ran = .ok (.ok report, y) ∧
      report.incomplete = false ∧ report.counters.merges = 1 ∧
      (y.reached.statesAt ⟨2⟩).map (·.parts) = states := by
  unfold last? at found
  split at found
  · rename_i report y
    split at found
    · rename_i told
      exact ⟨report, y, rfl, told.1, told.2, Option.some.inj found⟩
    · cases found
  · cases found

theorem last?_opened (act : PredicateState → Precision → Edge → AbstractorM (List PredicateState))
    {b : Abstractor} {f g : Formula}
    (first : ∀ st edge, st = .initial → edge = test → act st π₀ edge a =
      .ok (.ok [.boundary ⟨⟨.node 2⟩, f, g, tested⟩ tested.restart], b)) :
    last? (((opened act).analysis.run tests 5).run ⟨⟨a, 2, 0⟩, beginning π₀⟩) =
    some [[.location (.point ⟨2⟩),
      .predicate (.inside ⟨⟨.node 2⟩, f, g, tested⟩ ⟨.bool true, .empty, 1⟩)]] := by
  conv_lhs => cbv
  rw [first]
  · cbv
  · rfl
  · rfl

/-- Both paths after the test end in one state, whose abstraction is the predicate, and a value below
1 is in it. -/
def SoundTests : Prop :=
  ∃ (begun : Abstractor) (p : Predicate) (registry : Registry) (report : RunReport)
    (y : Exploration (CompositeStore Abstractor) CompositeState Precision) (f g : Formula),
    Abstractor.start ⟨{}, {}, { useCache := false }, ⟨.loopHeads, false⟩⟩ = .ok begun ∧
    Precision.ofAtoms [small] [] begun.registry = .ok (⟨[p], []⟩, registry) ∧
    ((ofPredicates ⟨.loopHeads, false⟩ tests true).analysis.run tests 5).run
      ⟨⟨{ begun with registry := registry }, 2, 0⟩, beginning ⟨[p], []⟩⟩ = .ok (.ok report, y) ∧
    report.incomplete = false ∧ report.counters.merges = 1 ∧
    (y.reached.statesAt ⟨2⟩).map (·.parts) =
      [[.location (.point ⟨2⟩), .predicate (.inside ⟨p.marker, f, g, tested⟩ ⟨.bool true, .empty, 1⟩)]] ∧
    ∃ e ∈ y.reached.statesAt ⟨2⟩, ∃ here st, e.parts = [here, .predicate st] ∧
      st.Contains .standard fun _ => -2 ^ 64

theorem ofPredicates_sound_tests : SoundTests := by
  let o : AnalysisOptions := ⟨{}, {}, { useCache := false }, ⟨.loopHeads, false⟩⟩
  obtain ⟨d, p, reg, begun, chosen, valid, single, id, atom, marker, few⟩ :=
    Abstractor.exists_ofAtoms o small
  have known : p ∈ (Abstractor.idle o reg).registry.predicates := by simp [Abstractor.idle, single]
  obtain ⟨f, g, b, run⟩ := exists_run_successors valid known (Nat.le_trans few (by decide)) rfl rfl rfl
    id atom marker
  have explored := last?_opened (PredicateState.successors ⟨.loopHeads, false⟩ tests)
    (a := .idle o reg) fun _ _ initial taken => by subst initial taken; exact run
  rw [opened_successors] at explored
  obtain ⟨report, y, ran, complete, merges, states⟩ := exists_of_last? explored
  have started : ((ofPredicates ⟨.loopHeads, false⟩ tests true).analysis.start tests true ⟨[p], []⟩).run
      ⟨.idle o reg, 1, 0⟩ = .ok (.ok (beginning ⟨[p], []⟩), ⟨.idle o reg, 2, 0⟩) := rfl
  obtain ⟨e, mem, -, here, st, parts, contains⟩ := ofPredicates_sound
    Operators.twosComplement_standard encodable_tests o rfl true true 5 0 0 begun
    (List.forall_mem_singleton.mpr (by cbv)) (List.forall_mem_nil _) chosen started ran complete
    (reached_tests _ (fun _ => -2 ^ 64) (by decide))
  exact ⟨_, p, reg, report, y, f, g, begun, chosen, ran, complete, merges, marker ▸ states, e, mem, here,
    st, parts, contains⟩

end Composite

end ProgramAnalysis
