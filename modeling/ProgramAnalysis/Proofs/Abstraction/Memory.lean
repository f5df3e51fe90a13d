import Mathlib
import ProgramAnalysis.Proofs.Abstraction.Returns

/-! What is remembered of abstractions. A result is remembered for a formula and the numbers of the
predicates, a verdict for a formula and the number of one predicate, an unsatisfiable formula for itself.
None of these says at which indices the predicates were read, so an abstraction from the memory is the
one that a computation gives exactly if what is remembered is also right at the indices of the path. -/
namespace ProgramAnalysis

open Attempt (Ensures)
open Solver (Answered Refuted)

namespace Abstractor

variable {a b c : Abstractor} {d e : Diagram} {f : Formula} {s : SsaMap} {p : Predicate}
  {ps : List Predicate} {w : Verdict} {base r u old : Abstraction} {path : PathFormula}
  {q : AbstractionQuery} {o : AnalysisOptions}

/-! ### Histories -/

/-- What happens between two states: the computation of an abstraction, also one that fails, or anything
else that remembers nothing. -/
inductive Happens (a b : Abstractor) : Prop
  | build {base : Abstraction} {path : PathFormula} {ps : List Predicate}
      {r : Except Failure Abstraction} (known : ∀ p ∈ ps, p ∈ a.registry.predicates)
      (run : (Abstractor.build base path ps).run a = .ok (r, b))
  | other (registry : a.registry.Adds b.registry) (settings : b.settings = a.settings)
      (limits : b.solver.limits = a.solver.limits) (results : b.memory.results = a.memory.results)
      (unsatisfiable : b.memory.unsatisfiable = a.memory.unsatisfiable)
      (verdicts : b.memory.verdicts = a.memory.verdicts)

inductive History (o : AnalysisOptions) : Abstractor → Prop
  | start {a : Abstractor} (made : Abstractor.start o = .ok a) : History o a
  | next {a b : Abstractor} (before : History o a) (step : a.Happens b) : History o b

/-- The first thing to happen is that a predicate is made. -/
theorem History.exists_predicate (o : AnalysisOptions) (atom : Formula) :
    ∃ p reg, History o (idle o reg) ∧ reg.Valid ∧ reg.predicates = [p] ∧ p.id = 0 ∧ p.atom = atom ∧
      reg.diagram.vars ≤ 1 := by
  obtain ⟨d, empty, started⟩ := exists_start o
  obtain ⟨p, reg, -, adds, single, id, same, few⟩ := Registry.exists_predicate empty atom
  exact ⟨p, reg, (History.start started).next (.other adds rfl rfl rfl rfl rfl), adds.valid, single, id,
    same, Nat.le_trans adds.valid.vars_le few⟩

/-- More predicates and verdicts. -/
structure Later (a b : Abstractor) : Prop where
  registry : a.registry.Adds b.registry
  settings : b.settings = a.settings
  limits : b.solver.limits = a.solver.limits
  kept : ∀ k w, a.memory.verdicts.lookup k = some w → b.memory.verdicts.lookup k = some w

theorem Judges.later (judges : Judges f s ps a b) (valid : a.registry.Valid) : a.Later b :=
  ⟨judges.registry.adds valid, judges.settings, judges.limits, judges.kept⟩

theorem Quiet.later (quiet : a.Quiet b) (valid : a.registry.Valid) : a.Later b :=
  have learns : Learns (.bool true) .empty [] a b := quiet.learns
  learns.later valid

/-! ### Remembered results -/

theorem booleanHolds_extends {limits : SolverLimits} (grown : e.Extends d) (valid : d.Valid)
    (has : ∀ p ∈ ps, d.Has p.marker.ref) (v : Valuation) :
    BooleanHolds limits e f s ps v ↔ BooleanHolds limits d f s ps v := by
  have important : ∀ x ∈ (relevant ps).map fun p => (p.symbol, p.marker), d.Has x.2.ref := by
    intro x mem
    obtain ⟨p, inside, rfl⟩ := List.mem_map.mp mem
    exact has p (List.mem_of_mem_filter inside)
  unfold BooleanHolds
  simp only [Prover.sees_extends grown valid important]

theorem cartesianHolds_extends (grown : e.Extends d) (valid : d.Valid)
    (has : ∀ p ∈ ps, d.Has p.marker.ref) (v : Valuation) :
    a.CartesianHolds e f s ps v ↔ a.CartesianHolds d f s ps v := by
  unfold CartesianHolds
  refine and_congr_right fun _ => forall₂_congr fun p mem => ?_
  simp only [allows_extends grown valid (has p mem)]

theorem holds_extends (grown : e.Extends d) (valid : d.Valid)
    (has : ∀ p ∈ ps, d.Has p.marker.ref) (v : Valuation) :
    a.Holds e f s ps v ↔ a.Holds d f s ps v := by
  unfold Holds
  split
  · exact cartesianHolds_extends grown valid has v
  · exact booleanHolds_extends grown valid has v

/-- There is a verdict on every predicate where one is needed. -/
def Settled (a : Abstractor) (f : Formula) (s : SsaMap) (ps : List Predicate) : Prop :=
  a.settings.abstraction.cartesian = true → ¬ Refuted a.solver.limits (.conj [f]) →
    ∀ p ∈ ps, ∃ w, a.Told f s p w

theorem Settled.later (settled : a.Settled f s ps) (later : a.Later b) : b.Settled f s ps := by
  intro cartesian satisfiable p mem
  rw [later.settings] at cartesian
  rw [later.limits] at satisfiable
  obtain ⟨w, told⟩ := settled cartesian satisfiable p mem
  exact ⟨w, told.later later.settings later.limits later.kept⟩

theorem Settled.holds_iff (settled : a.Settled f s ps) (later : a.Later b) (v : Valuation) :
    b.Holds d f s ps v ↔ a.Holds d f s ps v := by
  unfold Holds
  rw [later.settings, later.limits]
  split
  · rename_i cartesian
    unfold CartesianHolds
    rw [later.limits]
    refine and_congr_right fun satisfiable => forall₂_congr fun p mem => ?_
    obtain ⟨w, told⟩ := settled cartesian satisfiable p mem
    rw [told.exists_iff, (told.later later.settings later.limits later.kept).exists_iff]
  · exact Iff.rfl

/-- A remembered result is the abstraction of its formula at the indices of its own block. -/
structure Entry (a : Abstractor) (q : AbstractionQuery) (old : Abstraction) (ps : List Predicate) :
    Prop where
  known : ∀ p ∈ ps, p ∈ a.registry.predicates
  predicates : ps.map (·.id) = q.predicates
  has : a.registry.diagram.Has old.region.ref
  settled : a.Settled q.formula old.block.ssa ps
  eval : ∀ v, a.registry.diagram.eval v old.region.ref = true ↔
    a.Holds a.registry.diagram q.formula old.block.ssa ps v

theorem Entry.later (entry : Entry a q old ps) (later : a.Later b) (valid : a.registry.Valid) :
    Entry b q old ps where
  known p mem := later.registry.predicates.mem (entry.known p mem)
  predicates := entry.predicates
  has := later.registry.diagram.has entry.has
  settled := entry.settled.later later
  eval v := by
    rw [later.registry.diagram.eval_valid valid.diagram entry.has, entry.eval,
      ← entry.settled.holds_iff later, holds_extends later.registry.diagram valid.diagram
        fun p mem => (valid.marks p (entry.known p mem)).has]

/-- Every remembered result is right at its own indices. -/
structure Coherent (a : Abstractor) : Prop where
  registry : a.registry.Valid
  entries : ∀ q old, (q, old) ∈ a.memory.results → ∃ ps, Entry a q old ps

theorem Coherent.later (coherent : a.Coherent) (later : a.Later b)
    (results : b.memory.results = a.memory.results) : b.Coherent := by
  refine ⟨later.registry.valid, fun q old mem => ?_⟩
  rw [results] at mem
  obtain ⟨ps, entry⟩ := coherent.entries q old mem
  exact ⟨ps, entry.later later coherent.registry⟩

theorem Computed.entry (computed : Computed q path ps a b r) (valid : a.registry.Valid)
    (known : ∀ p ∈ ps, p ∈ a.registry.predicates) (predicates : ps.map (·.id) = q.predicates) :
    Entry b q r ps := by
  have same := computed.registry.predicates
  refine ⟨fun p mem => same ▸ known p mem, predicates, computed.reads.has, ?_, fun v => ?_⟩
  · rw [computed.block]
    intro cartesian satisfiable
    rw [computed.settings] at cartesian
    rw [computed.limits] at satisfiable
    exact computed.told cartesian satisfiable
  · rw [computed.block, computed.reads.eval]
    exact (holds_extends computed.registry.diagram.nodes valid.diagram
      (fun p mem => (valid.marks p (known p mem)).has) v).symm

theorem Coherent.happens (coherent : a.Coherent) (step : a.Happens b) : b.Coherent := by
  have valid := coherent.registry
  cases step with
  | @build base path ps r known run =>
    have built := build_ensures valid known base path
    have chosen : ∀ p ∈ selected ps, p ∈ a.registry.predicates := fun p mem =>
      known p (mem_of_mem_selected mem)
    replace built := Checked.Ensures.of_ok built run
    cases r with
    | error e => exact coherent.later (built.toJudges.later valid) built.results
    | ok r =>
      cases built with
      | trivial none quiet top => exact coherent.later (quiet.later valid) (by rw [quiet.memory])
      | remembered some quiet found =>
        exact coherent.later (quiet.later valid) (by rw [quiet.memory])
      -- Only this call brings a new result, the one that it has computed.
      | computed some new computed =>
        have later := computed.toJudges.later valid
        refine ⟨later.registry.valid, fun q old mem => ?_⟩
        rw [computed.results] at mem
        split at mem
        · rcases List.mem_cons.mp mem with same | mem
          · cases same
            exact ⟨selected ps, computed.entry valid chosen rfl⟩
          · obtain ⟨ps, entry⟩ := coherent.entries q old mem
            exact ⟨ps, entry.later later valid⟩
        · obtain ⟨ps, entry⟩ := coherent.entries q old mem
          exact ⟨ps, entry.later later valid⟩
  | other registry settings limits results unsatisfiable verdicts =>
    exact coherent.later ⟨registry, settings, limits, by rw [verdicts]; exact fun _ _ => id⟩ results

theorem History.coherent (history : History o a) : a.Coherent := by
  induction history with
  | start made =>
    obtain ⟨registry, empty, made⟩ := Outcome.exists_of_bind made
    cases made
    exact ⟨Registry.empty_valid empty, fun q old mem => (List.not_mem_nil mem).elim⟩
  | next before step ih => exact ih.happens step

/-! ### Verdicts and regions -/

/-- Predicates have region variables of their own, so their values can be chosen one by one. -/
theorem exists_valuation {reg : Registry} {t : Predicate → Verdict} {value : Bool}
    (valid : reg.Valid) (known : ∀ p ∈ ps, p ∈ reg.predicates) (mem : p ∈ ps)
    (leaves : (t p).Leaves value) : ∃ v, reg.diagram.eval v p.marker.ref = value ∧
      ∀ q ∈ ps, (t q).Allows reg.diagram q v := by
  let var (p : Predicate) : Nat := reg.diagram.var p.marker.ref
  let v : Valuation := fun x =>
    if x = var p then value else ps.any fun q => var q = x ∧ t q = .holds
  have own : reg.diagram.eval v p.marker.ref = value := by
    rw [(valid.marks p (known p mem)).eval]
    exact if_pos rfl
  refine ⟨v, own, fun q memQ => ?_⟩
  unfold Verdict.Allows
  by_cases same : q = p
  · rwa [same, own]
  · have other : var q ≠ var p := fun h => same (valid.separate q (known q memQ) p (known p mem) h)
    rw [(valid.marks q (known q memQ)).eval]
    have value : v (var q) = decide (t q = .holds) := by
      rw [show v (var q) = _ from if_neg other, Bool.eq_iff_iff, List.any_eq_true]
      simp only [decide_eq_true_eq]
      constructor
      · rintro ⟨q', mem', var', holds⟩
        rwa [← valid.separate q' (known q' mem') q (known q memQ) var']
      · exact fun holds => ⟨q, memQ, rfl, holds⟩
    rw [show v (reg.diagram.var q.marker.ref) = _ from value]
    cases t q <;> simp [Verdict.Leaves]

/-- Different verdicts give different regions. -/
theorem eq_of_allows {reg : Registry} {t t' : Predicate → Verdict} (valid : reg.Valid)
    (known : ∀ p ∈ ps, p ∈ reg.predicates)
    (same : ∀ v, (∀ p ∈ ps, (t p).Allows reg.diagram p v) ↔
      ∀ p ∈ ps, (t' p).Allows reg.diagram p v) : ∀ p ∈ ps, t p = t' p := by
  intro p mem
  refine Verdict.eq_of_leaves fun value => ⟨fun leaves => ?_, fun leaves => ?_⟩
  · obtain ⟨v, rfl, allows⟩ := exists_valuation valid known mem leaves
    exact (same v).mp allows p mem
  · obtain ⟨v, rfl, allows⟩ := exists_valuation valid known mem leaves
    exact (same v).mpr allows p mem

/-! ### With and without the memory -/

/-- The same predicates and options, but nothing is taken from the memory. -/
def withoutCache (a : Abstractor) : Abstractor :=
  { a with settings := { a.settings with
      abstraction := { a.settings.abstraction with useCache := false } } }

@[simp] theorem withoutCache_cartesian (a : Abstractor) :
    a.withoutCache.settings.abstraction.cartesian = a.settings.abstraction.cartesian := rfl

/-- The remembered verdicts on predicates are right at the indices `s`. -/
def VerdictsHold (a : Abstractor) (f : Formula) (s : SsaMap) (ps : List Predicate) : Prop :=
  ∀ p ∈ ps, ∀ w, a.memory.verdicts.lookup (f, p.id) = some w →
    Judged a.solver.limits f (p.atom.instantiate s) w

/-- What is known of `f` at the indices `s` is also right at the indices `t`. -/
def StillRight (a : Abstractor) (f : Formula) (s t : SsaMap) (ps : List Predicate) : Prop :=
  if a.settings.abstraction.cartesian then
    Refuted a.solver.limits (.conj [f]) ∨ a.VerdictsHold f t ps
  else ∀ v, BooleanHolds a.solver.limits a.registry.diagram f s ps v ↔
    BooleanHolds a.solver.limits a.registry.diagram f t ps v

/-- What the memory would be used for is right for a path: a remembered result and remembered verdicts
are right at the indices of the path, and nothing is in the abstraction of a formula that is remembered as
unsatisfiable. -/
def Current (a : Abstractor) (base : Abstraction) (path : PathFormula) (ps : List Predicate) :
    Prop :=
  ps = [] ∨
    let q := a.queryOf base path (selected ps)
    match a.memory.results.lookup q with
    | some old => a.StillRight q.formula old.block.ssa path.ssa (selected ps)
    | none =>
      if a.memory.unsatisfiable.contains (strengthened a.settings.formula path.formula) ||
          a.memory.unsatisfiable.contains q.formula then
        ∀ v, ¬ a.withoutCache.Holds a.registry.diagram q.formula path.ssa (selected ps) v
      else a.StillRight q.formula path.ssa path.ssa (selected ps)

theorem cartesianHolds_same_iff {t : SsaMap} (valid : a.registry.Valid)
    (known : ∀ p ∈ ps, p ∈ a.registry.predicates)
    (caching : a.settings.abstraction.useCache = true)
    (told : ¬ Refuted a.solver.limits (.conj [f]) → ∀ p ∈ ps, ∃ w, a.Told f s p w) :
    (∀ v, a.CartesianHolds a.registry.diagram f s ps v ↔
      a.withoutCache.CartesianHolds a.registry.diagram f t ps v) ↔
      Refuted a.solver.limits (.conj [f]) ∨ a.VerdictsHold f t ps := by
  by_cases refuted : Refuted a.solver.limits (.conj [f])
  · exact ⟨fun _ => .inl refuted, fun _ v =>
      ⟨fun holds => (holds.1 refuted).elim, fun holds => (holds.1 refuted).elim⟩⟩
  · have : Nonempty Verdict := ⟨.unknown⟩
    -- Both sides allow values by one verdict for each predicate: `w` is remembered, `w'` would be
    -- given.
    choose! w told using told refuted
    choose w' judged using fun p : Predicate => exists_judged a.solver.limits f (Formula.instantiate t p.atom)
    have cached (v : Valuation) : a.CartesianHolds a.registry.diagram f s ps v ↔
        ∀ p ∈ ps, (w p).Allows a.registry.diagram p v := by
      refine (and_iff_right refuted).trans (forall₂_congr fun p mem => ?_)
      exact (told p mem).exists_iff
    have plain (v : Valuation) : a.withoutCache.CartesianHolds a.registry.diagram f t ps v ↔
        ∀ p ∈ ps, (w' p).Allows a.registry.diagram p v := by
      refine (and_iff_right refuted).trans (forall₂_congr fun p mem => ?_)
      exact Told.exists_iff (a := a.withoutCache) (judged p)
    have remembered (p : Predicate) (mem : p ∈ ps) :
        a.memory.verdicts.lookup (f, p.id) = some (w p) := by
      have told := told p mem
      unfold Told at told
      rwa [if_pos caching] at told
    simp only [cached, plain, refuted, false_or]
    constructor
    · intro same p mem x found
      have := eq_of_allows valid known same p mem
      rw [remembered p mem] at found
      cases found
      rw [this]
      exact judged p
    · intro right v
      refine forall₂_congr fun p mem => ?_
      rw [(right p mem _ (remembered p mem)).unique (judged p)]

theorem stillRight_iff {t : SsaMap} (valid : a.registry.Valid)
    (known : ∀ p ∈ ps, p ∈ a.registry.predicates)
    (caching : a.settings.abstraction.useCache = true) (settled : a.Settled f s ps) :
    (∀ v, a.Holds a.registry.diagram f s ps v ↔
      a.withoutCache.Holds a.registry.diagram f t ps v) ↔ a.StillRight f s t ps := by
  unfold Holds StillRight
  rw [withoutCache_cartesian]
  split
  · rename_i cartesian
    exact cartesianHolds_same_iff valid known caching (settled cartesian)
  · exact Iff.rfl

theorem Later.stillRight_iff {t : SsaMap} (later : a.Later b) (valid : a.registry.Valid)
    (known : ∀ p ∈ ps, p ∈ a.registry.predicates)
    (judged : ∀ p ∈ ps, ∀ w, b.memory.verdicts.lookup (f, p.id) = some w →
      a.memory.verdicts.lookup (f, p.id) = some w ∨
        Judged a.solver.limits f (p.atom.instantiate t) w) :
    b.StillRight f s t ps ↔ a.StillRight f s t ps := by
  unfold StillRight
  rw [later.settings, later.limits]
  split
  · refine or_congr_right ⟨fun right p mem w found => ?_, fun right p mem w found => ?_⟩
    · have := right p mem w (later.kept _ _ found)
      rwa [later.limits] at this
    · rw [later.limits]
      rcases judged p mem w found with found | judged
      · exact right p mem w found
      · exact judged
  · have has (p : Predicate) (mem : p ∈ ps) := (valid.marks p (known p mem)).has
    refine forall_congr' fun v => ?_
    rw [booleanHolds_extends later.registry.diagram valid.diagram has,
      booleanHolds_extends later.registry.diagram valid.diagram has]

theorem withoutCache_holds {v : Valuation} (settings : c.settings = a.withoutCache.settings)
    (limits : c.solver.limits = a.solver.limits) :
    c.Holds d f s ps v ↔ a.withoutCache.Holds d f s ps v := by
  unfold Holds CartesianHolds Told
  rw [settings, limits]
  exact Iff.rfl

theorem ids_injective {reg : Registry} (valid : reg.Valid) : ∀ {ps qs : List Predicate},
    (∀ p ∈ ps, p ∈ reg.predicates) → (∀ p ∈ qs, p ∈ reg.predicates) →
    ps.map (·.id) = qs.map (·.id) → ps = qs
  | [], [], _, _, _ => rfl
  | p :: ps, q :: qs, knownP, knownQ, same => by
    obtain ⟨memP, knownP⟩ := List.forall_mem_cons.mp knownP
    obtain ⟨memQ, knownQ⟩ := List.forall_mem_cons.mp knownQ
    obtain ⟨first, rest⟩ := List.cons_eq_cons.mp same
    rw [valid.eq_of_id memP memQ first, ids_injective valid knownP knownQ rest]

theorem Computed.plain (computed : Computed q path ps b.withoutCache c u) (v : Valuation) :
    c.registry.diagram.eval v u.region.ref = true ↔
      b.withoutCache.Holds b.registry.diagram q.formula path.ssa ps v := by
  rw [computed.reads.eval]
  exact withoutCache_holds computed.settings computed.limits

theorem Entry.region_eq_iff (entry : Entry b q old ps) (valid : b.registry.Valid)
    (caching : b.settings.abstraction.useCache = true)
    (computed : Computed q path ps b.withoutCache c u) :
    old.region = u.region ↔ b.StillRight q.formula old.block.ssa path.ssa ps := by
  have grown : b.registry.diagram.Grows c.registry.diagram := computed.registry.diagram
  rw [Region.eq_iff grown.valid (grown.has entry.has) computed.reads.has,
    ← Abstractor.stillRight_iff valid entry.known caching entry.settled]
  refine forall_congr' fun v => ?_
  rw [computed.plain, grown.nodes.eval_valid valid.diagram entry.has, entry.eval]

theorem Computed.bottom_eq_iff (computed : Computed q path ps b.withoutCache c u) :
    .bottom = u.region ↔
      ∀ v, ¬ b.withoutCache.Holds b.registry.diagram q.formula path.ssa ps v := by
  have grown := computed.registry.diagram
  rw [Region.eq_iff (a := .bottom) grown.valid (Diagram.has_zero _) computed.reads.has]
  refine forall_congr' fun v => ?_
  rw [computed.plain]
  simp [Region.bottom]

theorem Built.top_of_nil (built : Built base path [] a b r) : r = .top path := by
  cases built with
  | trivial _ _ top => exact top
  | remembered some => exact (some rfl).elim
  | computed some => exact (some rfl).elim

theorem Built.computed_of_new (built : Built base path ps a b r) (some : ps ≠ [])
    (new : a.recalled? base path ps = none) :
    Computed (a.queryOf base path (selected ps)) path (selected ps) a b r := by
  cases built with
  | trivial none => exact (some none).elim
  | remembered _ _ found => cases new.symm.trans found
  | computed _ _ computed => exact computed

theorem Built.computed_of_withoutCache (built : Built base path ps b.withoutCache c u)
    (some : ps ≠ []) :
    Computed (b.queryOf base path (selected ps)) path (selected ps) b.withoutCache c u :=
  built.computed_of_new some rfl

theorem remembered?_eq_some {m : AbstractionMemory} {g : Formula}
    (found : remembered? m q g path = some r) :
    (∃ old, m.results.lookup q = some old ∧ r.region = old.region) ∨
      m.results.lookup q = none ∧
        (m.unsatisfiable.contains g || m.unsatisfiable.contains q.formula) = true ∧
        r.region = .bottom := by
  unfold remembered? at found
  split at found
  · rename_i old known
    cases found
    exact .inl ⟨old, known, rfl⟩
  · rename_i new
    split at found
    · rename_i unsatisfiable
      cases found
      exact .inr ⟨new, unsatisfiable, rfl⟩
    · cases found

theorem remembered?_eq_none {m : AbstractionMemory} {g : Formula}
    (new : remembered? m q g path = none) : m.results.lookup q = none ∧
      (m.unsatisfiable.contains g || m.unsatisfiable.contains q.formula) = false := by
  unfold remembered? at new
  split at new
  · cases new
  · rename_i unknown
    split at new
    · cases new
    · rename_i satisfiable
      exact ⟨unknown, Bool.eq_false_iff.mpr satisfiable⟩

theorem Built.later (built : Built base path ps a b r) (valid : a.registry.Valid) : a.Later b := by
  cases built with
  | trivial none quiet => exact quiet.later valid
  | remembered some quiet => exact quiet.later valid
  | computed some new computed => exact computed.toJudges.later valid

theorem Later.withoutCache_holds_iff (later : a.Later b) (valid : a.registry.Valid)
    (known : ∀ p ∈ ps, p ∈ a.registry.predicates) (v : Valuation) :
    b.withoutCache.Holds b.registry.diagram f s ps v ↔
      a.withoutCache.Holds a.registry.diagram f s ps v := by
  rw [holds_extends later.registry.diagram valid.diagram
    fun p mem => (valid.marks p (known p mem)).has]
  refine withoutCache_holds ?_ later.limits
  unfold withoutCache
  rw [later.settings]

/-- With the memory of any history, an abstraction has the region that a computation without the memory
gives exactly if what the memory is used for is right at the indices of the path. -/
theorem build_region_eq_iff (history : History o a)
    (caching : a.settings.abstraction.useCache = true)
    (known : ∀ p ∈ ps, p ∈ a.registry.predicates)
    (run : (build base path ps).run a = .ok (.ok r, b))
    (plain : (build base path ps).run b.withoutCache = .ok (.ok u, c)) :
    r.region = u.region ↔ a.Current base path ps := by
  have coherent := history.coherent
  have valid := coherent.registry
  have built := (build_ensures valid known base path).of_ok run
  have later := built.later valid
  have validB := later.registry.valid
  have cachingB : b.settings.abstraction.useCache = true := by rwa [later.settings]
  have chosen : ∀ p ∈ selected ps, p ∈ a.registry.predicates := fun p mem =>
    known p (mem_of_mem_selected mem)
  have builtPlain : Built base path ps b.withoutCache c u :=
    (build_ensures (a := b.withoutCache) validB
      (fun p mem => later.registry.predicates.mem (known p mem)) base path).of_ok plain
  unfold Current
  by_cases none : ps = []
  · subst none
    simp [built.top_of_nil, builtPlain.top_of_nil]
  have computed := builtPlain.computed_of_withoutCache none
  have query : b.queryOf base path (selected ps) = a.queryOf base path (selected ps) := by
    unfold queryOf
    rw [later.settings]
  rw [query] at computed
  rw [or_iff_right none]
  dsimp only
  cases built with
  | trivial empty => exact (none empty).elim
  | remembered _ quiet found =>
    unfold recalled? at found
    rw [if_pos caching] at found
    -- A hit is an entry of the same query, or it says that the formula is unsatisfiable.
    rcases remembered?_eq_some found with ⟨old, known', region⟩ | ⟨new, unsatisfiable, region⟩
    · obtain ⟨qs, entry⟩ := coherent.entries _ old (NameMap.mem_of_lookup known')
      obtain rfl := ids_injective valid entry.known chosen entry.predicates
      rw [region, (entry.later later valid).region_eq_iff validB cachingB computed, known']
      refine later.stillRight_iff valid chosen fun p mem w found => .inl ?_
      rwa [quiet.memory] at found
    · rw [region, computed.bottom_eq_iff, new]
      simp only [unsatisfiable, if_true]
      exact forall_congr' fun v => not_congr (later.withoutCache_holds_iff valid chosen v)
  -- On a miss the memory is still asked for verdicts.
  | computed _ new cached =>
    unfold recalled? at new
    rw [if_pos caching] at new
    obtain ⟨unknown, satisfiable⟩ := remembered?_eq_none new
    have entry := cached.entry valid chosen rfl
    rw [entry.region_eq_iff validB cachingB computed, cached.block, unknown]
    simp only [satisfiable, Bool.false_eq_true, if_false]
    refine later.stillRight_iff valid chosen fun p mem w found => ?_
    rcases cached.judged _ w found with found | ⟨p', mem', same, judged⟩
    · exact .inl found
    · have same := valid.eq_of_id (chosen p mem) (chosen p' mem') (congrArg (·.2) same)
      exact .inr (same ▸ judged)

/-! ### Remembering a call -/

theorem Computed.judged_of_told (computed : Computed q path ps a b r) (valid : a.registry.Valid)
    (known : ∀ p ∈ ps, p ∈ a.registry.predicates) (new : a.memory.verdicts = []) (mem : p ∈ ps)
    (told : b.Told q.formula path.ssa p w) :
    Judged a.solver.limits q.formula (p.atom.instantiate path.ssa) w := by
  unfold Told at told
  split at told
  · rcases computed.judged _ w told with found | ⟨p', mem', same, judged⟩
    · rw [new] at found
      cases found
    · rwa [valid.eq_of_id (known p mem) (known p' mem') (congrArg (·.2) same)]
  · rwa [computed.limits] at told

/-- What is computed for a path is found again for any path with the same formula. -/
theorem Built.recalled {path' : PathFormula} (built : Built base path ps a b r) (some : ps ≠ [])
    (new : a.recalled? base path ps = none) (caching : a.settings.abstraction.useCache = true)
    (same : path'.formula = path.formula) :
    b.recalled? base path' ps = .some (r.reinstantiate path') := by
  have computed := built.computed_of_new some new
  have query : b.queryOf base path' (selected ps) = a.queryOf base path (selected ps) := by
    unfold queryOf reachable
    rw [computed.settings, same]
  unfold recalled? remembered?
  rw [computed.settings, if_pos caching, computed.results, query, if_pos caching,
    List.lookup_cons_self]

theorem Built.eq_of_recalled (built : Built base path ps a b r) (some : ps ≠ [])
    (found : a.recalled? base path ps = .some u) : r = u := by
  cases built with
  | trivial none => exact (some none).elim
  | remembered _ _ found' => exact Option.some.inj (found'.symm.trans found)
  | computed _ new => cases new.symm.trans found

theorem Built.grows (built : Built base path ps a b r) : a.Grows b := by
  cases built with
  | trivial none quiet => exact quiet.toGrows
  | remembered some quiet => exact quiet.toGrows
  | computed some new computed => exact computed.toGrows

/-- After the first of two calls the memory is right for the second exactly if the new entry is. -/
theorem Built.current_iff {path' : PathFormula} (built : Built base path ps a b r) (some : ps ≠ [])
    (new : a.recalled? base path ps = none) (caching : a.settings.abstraction.useCache = true)
    (same : path'.formula = path.formula) : b.Current base path' ps ↔
      b.StillRight (a.queryOf base path (selected ps)).formula path.ssa path'.ssa (selected ps) := by
  have computed := built.computed_of_new some new
  have query : b.queryOf base path' (selected ps) = a.queryOf base path (selected ps) := by
    unfold queryOf reachable
    rw [computed.settings, same]
  unfold Current
  rw [or_iff_right some]
  dsimp only
  rw [query, computed.results, if_pos caching, List.lookup_cons_self]
  dsimp only
  rw [computed.block]

/-- A call that is answered has a result, and so it has without the memory. -/
theorem exists_again (valid : a.registry.Valid) (known : ∀ p ∈ ps, p ∈ a.registry.predicates)
    (few : a.registry.diagram.vars ≤ 4) (answered : a.QueriesAnswered
      (reachable a.settings.formula base path) path.ssa (selected ps)) :
    ∃ b c r u, (build base path ps).run a = .ok (.ok r, b) ∧ Built base path ps a b r ∧
      (build base path ps).run b.withoutCache = .ok (.ok u, c) := by
  obtain ⟨r, b, run, -⟩ := (build_returns valid known few answered).exists_run
  have built := (build_ensures valid known base path).of_ok run
  have grown := built.grows
  have later := built.later valid
  have answered' : b.withoutCache.QueriesAnswered
      (reachable b.settings.formula base path) path.ssa (selected ps) := by
    rw [grown.settings]
    exact answered.of_same (congrArg (·.abstraction.cartesian) grown.settings) grown.limits
  obtain ⟨u, c, plain, -⟩ := (build_returns (a := b.withoutCache) later.registry.valid
    (fun p mem => later.registry.predicates.mem (known p mem))
    (grown.registry.diagram.vars.trans_le few) answered').exists_run
  exact ⟨b, c, r, u, run, built, plain⟩

/-- A call, another one, and that without the memory. -/
structure Repeats (o : AnalysisOptions) (base : Abstraction) (path path' : PathFormula)
    (ps : List Predicate) (start a b c : Abstractor) (old r u : Abstraction) : Prop where
  history : History o a
  known : ∀ p ∈ ps, p ∈ a.registry.predicates
  later : start.Later a
  first : Built base path ps start a old
  second : Built base path' ps a b r
  run : (build base path' ps).run a = .ok (.ok r, b)
  plain : (build base path' ps).run b.withoutCache = .ok (.ok u, c)

theorem History.exists_repeats (history : History o a) (known : ∀ p ∈ ps, p ∈ a.registry.predicates)
    (few : a.registry.diagram.vars ≤ 4) (answered : a.QueriesAnswered
      (reachable a.settings.formula base path) path.ssa (selected ps)) : ∃ a' old,
    Built base path ps a a' old ∧ ∀ path', a.QueriesAnswered
      (reachable a.settings.formula base path') path'.ssa (selected ps) →
        ∃ b c r u, Repeats o base path path' ps a a' b c old r u := by
  have valid := history.coherent.registry
  obtain ⟨old, a', run, -⟩ := (build_returns valid known few answered).exists_run
  have built := (build_ensures valid known _ _).of_ok run
  have later := built.later valid
  have grown := built.grows
  have known' : ∀ p ∈ ps, p ∈ a'.registry.predicates := fun p mem =>
    later.registry.predicates.mem (known p mem)
  refine ⟨a', old, built, fun path' again => ?_⟩
  have again' : a'.QueriesAnswered (reachable a'.settings.formula base path') path'.ssa
      (selected ps) := by
    rw [grown.settings]
    exact again.of_same (congrArg (·.abstraction.cartesian) grown.settings) grown.limits
  obtain ⟨b, c, r, u, run', built', plain⟩ := exists_again later.registry.valid known'
    (grown.registry.diagram.vars.trans_le few) again'
  exact ⟨b, c, r, u, history.next (.build known run), known', later, built, built', run', plain⟩

/-- The same formula at other indices: the second call has the region that it has without the memory exactly
if what is remembered of the first is right there. -/
theorem Repeats.region_eq_iff {start : Abstractor} {path' : PathFormula}
    (repeats : Repeats o base path path' ps start a b c old r u) (valid : start.registry.Valid)
    (known : ∀ p ∈ ps, p ∈ start.registry.predicates) (some : ps ≠ [])
    (new : start.recalled? base path ps = none)
    (caching : start.settings.abstraction.useCache = true)
    (same : path'.formula = path.formula) : r.region = u.region ↔
      b.StillRight (start.queryOf base path (selected ps)).formula path.ssa path'.ssa (selected ps) := by
  have later := repeats.second.later repeats.later.registry.valid
  have validB := later.registry.valid
  have settings : b.settings = start.settings := later.settings.trans repeats.later.settings
  have first := repeats.first.computed_of_new some new
  have entry := (first.entry valid (fun p mem => known p (mem_of_mem_selected mem)) rfl).later later
    repeats.later.registry.valid
  have recalled : a.recalled? base path' ps = .some (old.reinstantiate path') :=
    repeats.first.recalled some new caching same
  have hit : r.region = old.region := by
    rw [repeats.second.eq_of_recalled some recalled]
    rfl
  have plain : Computed (start.queryOf base path (selected ps)) path' (selected ps) b.withoutCache c u := by
    have built := (build_ensures (a := b.withoutCache) validB
      (fun p mem => later.registry.predicates.mem (repeats.known p mem)) _ _).of_ok repeats.plain
    have query : b.queryOf base path' (selected ps) = start.queryOf base path (selected ps) := by
      unfold queryOf reachable
      rw [settings, same]
    exact query ▸ built.computed_of_withoutCache some
  rw [hit, entry.region_eq_iff validB (by rwa [settings]) plain, first.block]

/-! ### A verdict at another index

A test of `x < 1` is passed, then `x` is read from the input. The formula of the path stays as it is, and so
does what is remembered of it, although the predicate `x < 1` is about another value by now. -/

namespace Renewed

def small : Formula := .atom .lt (.symbolic "x") (.const 1)

def smallAt (i : Nat) : Formula := .atom .lt (.indexed "x" i) (.const 1)

def test : Edge := ⟨⟨0⟩, ⟨1⟩, .assume (.compare .lt (.var "x") (.const 1)) true⟩

def input : Edge := ⟨⟨1⟩, ⟨2⟩, .assign (.var "x") .nondet⟩

def tested : PathFormula := ⟨smallAt 1, .empty, 1⟩

def renewed : PathFormula := ⟨smallAt 1, ⟨(∅ : NameMap Nat).insert "x" 2⟩, 2⟩

theorem extend_test : (PathFormula.empty.extend test).run = .ok (.ok tested) := rfl

theorem extend_input : (tested.extend input).run = .ok (.ok renewed) := rfl

theorem reachable_small (o : FormulaOptions) (formula : path.formula = smallAt 1) :
    reachable o (.top .empty) path = smallAt 1 := by
  have plain : (smallAt 1).bitwiseAxioms = .bool true := by cbv
  rw [reachable, strengthened, formula, if_neg fun asked => asked.2 plain]
  cbv

/-- Values of `x` at the indices 1 and 2, each of them small or not. -/
def values (first second : Bool) : Assignment where
  number x := if x.index = some 1 then (if first then 0 else 1) else if second then 0 else 1
  truth _ := false

theorem holds_values : ∀ first second : Bool,
    (smallAt 1).holds .standard (values first second) = first ∧
      (smallAt 2).holds .standard (values first second) = second := by
  decide

theorem answered_small : Answered {} (.conj [smallAt 1]) := by
  have forces : Solver.Forces .standard (.conj [smallAt 1]) [(smallAt 1, true)] :=
    Solver.forces_conj rfl (by cbv) (Skeleton.free_singleton (fun first => values first true)
      fun first => (holds_values first true).1)
  refine forces.answered (b := true) (by cbv) fun k path known => ?_
  unfold Skeleton.Decides Skeleton.consistent?
  rw [known]
  cbv

/-- After the input both values of the predicate are possible. -/
theorem answered_renewed (second : Bool) :
    Answered {} (.conj [smallAt 1, Skeleton.ofLiteral (smallAt 2, second)]) := by
  have forces : Solver.Forces .standard
      (.conj [smallAt 1, Skeleton.ofLiteral (smallAt 2, second)])
      [(smallAt 1, true), (smallAt 2, second)] :=
    Solver.forces_conj rfl (by cases second <;> cbv) (Skeleton.free_pair values holds_values)
  refine forces.answered (b := true) (by cases second <;> cbv) fun k path known => ?_
  unfold Skeleton.Decides Skeleton.consistent?
  rw [known]
  cases second <;> cbv

theorem not_refuted_small : ¬ Refuted {} (.conj [smallAt 1]) := by
  have words : (Formula.conj [smallAt 1]).Within .words := by cbv
  exact Solver.not_refuted (m := values true true) Operators.integral_standard words (by decide)

theorem not_refuted_renewed : ¬ Refuted {} (.conj [smallAt 1, (smallAt 2).negate]) := by
  have words : (Formula.conj [smallAt 1, (smallAt 2).negate]).Within .words := by cbv
  exact Solver.not_refuted (m := values true false) Operators.integral_standard words (by decide)

/-- Before the input only one is. -/
theorem refuted_tested (limits : SolverLimits) :
    Refuted limits (.conj [smallAt 1, (smallAt 1).negate]) := by
  obtain ⟨k, made⟩ := Skeleton.exists_ofFormula
    (show Skeleton.room (.conj [smallAt 1, (smallAt 1).negate]) + 2 < 0x7fffffff by cbv)
  have atoms : k.atoms = #[smallAt 1] := (Skeleton.ofFormula_encodes made).atoms.trans (by cbv)
  have free : Skeleton.Free .standard k.atoms := by
    rw [atoms]
    exact Skeleton.free_singleton (fun first => values first true) fun first =>
      (holds_values first true).1
  refine Solver.refuted_of_free made free (fun m => ?_) limits
  rw [Bool.eq_false_iff, ne_eq, Formula.holds_conj]
  simp

theorem asked_tested : Asked {} (smallAt 1) (smallAt 1) :=
  ⟨(refuted_tested {}).answered, fun satisfiable => (satisfiable (refuted_tested {})).elim⟩

theorem asked_renewed : Asked {} (smallAt 1) (smallAt 2) :=
  ⟨answered_renewed false, fun _ => answered_renewed true⟩

theorem queries_answered (limits : a.solver.limits = {})
    (cartesian : a.settings.abstraction.cartesian = true) (formula : path.formula = smallAt 1)
    (asked : Asked {} (smallAt 1) (p.atom.instantiate path.ssa)) : a.QueriesAnswered
      (reachable a.settings.formula (.top .empty) path) path.ssa (selected [p]) := by
  unfold QueriesAnswered
  rw [if_pos cartesian, limits, reachable_small _ formula, selected_singleton]
  exact ⟨answered_small, fun _ => List.forall_mem_singleton.mpr asked⟩

/-- The verdict for the path before the input is remembered. -/
structure Remembers (start a : Abstractor) (old : Abstraction) (p : Predicate) : Prop where
  valid : start.registry.Valid
  known : p ∈ start.registry.predicates
  atom : p.atom = small
  new : start.recalled? (.top .empty) tested [p] = none
  first : Built (.top .empty) tested [p] start a old
  caching : a.settings.abstraction.useCache = true
  cartesian : a.settings.abstraction.cartesian = true
  limits : a.solver.limits = {}
  verdict : a.memory.verdicts.lookup (smallAt 1, p.id) = some .holds

namespace Remembers

variable {start : Abstractor} {old : Abstraction}

theorem settings (remembers : Remembers start a old p) : start.settings = a.settings :=
  remembers.first.grows.settings.symm

theorem current_iff (remembers : Remembers start a old p) (formula : path.formula = smallAt 1) :
    a.Current (.top .empty) path [p] ↔ a.StillRight (smallAt 1) tested.ssa path.ssa [p] := by
  have caching : start.settings.abstraction.useCache = true := by
    rw [remembers.settings, remembers.caching]
  rw [remembers.first.current_iff (List.cons_ne_nil p []) remembers.new caching formula, queryOf,
    reachable_small _ rfl, selected_singleton]

theorem current (remembers : Remembers start a old p) : a.Current (.top .empty) tested [p] := by
  rw [remembers.current_iff rfl, StillRight, if_pos remembers.cartesian, remembers.limits]
  refine .inr (List.forall_mem_singleton.mpr fun w found => ?_)
  cases remembers.verdict.symm.trans found
  rw [remembers.limits, remembers.atom]
  exact refuted_tested {}

/-- What is remembered of the path before the input is not right after it. -/
theorem not_stillRight (remembers : Remembers start a old p) (later : a.Later b) :
    ¬ b.StillRight (smallAt 1) tested.ssa renewed.ssa [p] := by
  have cartesian : b.settings.abstraction.cartesian = true := by
    rw [later.settings, remembers.cartesian]
  have limits : b.solver.limits = {} := later.limits.trans remembers.limits
  unfold StillRight
  rw [if_pos cartesian, limits]
  rintro (refuted | right)
  · exact not_refuted_small refuted
  · have judged := right p (List.mem_singleton_self p) .holds (later.kept _ _ remembers.verdict)
    rw [limits, remembers.atom] at judged
    exact not_refuted_renewed judged

theorem not_current (remembers : Remembers start a old p) :
    ¬ a.Current (.top .empty) renewed [p] := by
  have adds := (Built.later remembers.first remembers.valid).registry
  rw [remembers.current_iff rfl]
  exact remembers.not_stillRight
    ⟨⟨adds.valid, List.prefix_refl _, .refl _⟩, rfl, rfl, fun _ _ found => found⟩

end Remembers

/-- A computation for the path before the input, and calls for it and for the path after it. -/
theorem exists_remembers : ∃ (o : AnalysisOptions) (start a : Abstractor) (old : Abstraction)
    (p : Predicate), Remembers start a old p ∧ ∀ path ∈ [tested, renewed], ∃ b c r u,
      Repeats o (.top .empty) tested path [p] start a b c old r u := by
  let o : AnalysisOptions := ⟨{}, {}, { cartesian := true }, {}⟩
  obtain ⟨p, reg, history, valid, single, -, atom, few⟩ := History.exists_predicate o small
  let start : Abstractor := idle o reg
  have known : ∀ q ∈ [p], q ∈ start.registry.predicates := by simp [start, idle, single]
  have before : start.QueriesAnswered (reachable start.settings.formula (.top .empty) tested)
      tested.ssa (selected [p]) := queries_answered rfl rfl rfl (by rw [atom]; exact asked_tested)
  have after : start.QueriesAnswered (reachable start.settings.formula (.top .empty) renewed)
      renewed.ssa (selected [p]) := queries_answered rfl rfl rfl (by rw [atom]; exact asked_renewed)
  obtain ⟨a, old, first, repeats⟩ := history.exists_repeats known (Nat.le_trans few (by decide)) before
  have computed := first.computed_of_new (List.cons_ne_nil p []) rfl
  rw [queryOf, reachable_small _ rfl, selected_singleton] at computed
  have settings : a.settings = start.settings := computed.settings
  have caching : a.settings.abstraction.useCache = true :=
    congrArg (·.abstraction.useCache) settings
  have verdict : a.memory.verdicts.lookup (smallAt 1, p.id) = some .holds := by
    obtain ⟨w, told⟩ := computed.told rfl not_refuted_small p (List.mem_singleton_self p)
    have judged := computed.judged_of_told valid known rfl (List.mem_singleton_self p) told
    rw [atom] at judged
    obtain rfl : w = .holds := judged.unique (refuted_tested {})
    unfold Told at told
    rwa [if_pos caching] at told
  refine ⟨o, start, a, old, p, ⟨valid, known p (List.mem_singleton_self p), atom, rfl, first, caching,
    congrArg (·.abstraction.cartesian) settings, computed.limits, verdict⟩, ?_⟩
  simp only [List.forall_mem_cons, List.not_mem_nil, false_implies, implies_true, and_true]
  exact ⟨repeats tested before, repeats renewed after⟩

end Renewed

open Renewed in
/-- The memory is right for the path before the input, which is found with the region it has without the
memory; it is not right for the path after it, and there the regions differ. -/
theorem build_region_eq_iff_tested : ∃ (o : AnalysisOptions) (a : Abstractor) (p : Predicate),
    History o a ∧ a.settings.abstraction.useCache = true ∧ p ∈ a.registry.predicates ∧ p.atom = small ∧
    a.Current (.top .empty) tested [p] ∧ ¬ a.Current (.top .empty) renewed [p] ∧
    (∃ b c r u, (build (.top .empty) tested [p]).run a = .ok (.ok r, b) ∧
      (build (.top .empty) tested [p]).run b.withoutCache = .ok (.ok u, c) ∧ r.region = u.region) ∧
    ∃ b c r u, (build (.top .empty) renewed [p]).run a = .ok (.ok r, b) ∧
      (build (.top .empty) renewed [p]).run b.withoutCache = .ok (.ok u, c) ∧ r.region ≠ u.region := by
  obtain ⟨o, start, a, old, p, remembers, repeats⟩ := exists_remembers
  obtain ⟨b, c, r, u, same⟩ := repeats tested (by simp)
  obtain ⟨b', c', r', u', other⟩ := repeats renewed (by simp)
  have right := remembers.current
  have wrong := remembers.not_current
  have caching := remembers.caching
  exact ⟨o, a, p, same.history, caching, same.known p (List.mem_singleton_self p), remembers.atom,
    right, wrong, ⟨b, c, r, u, same.run, same.plain,
      (build_region_eq_iff same.history caching same.known same.run same.plain).mpr right⟩,
    b', c', r', u', other.run, other.plain, fun equal =>
      wrong ((build_region_eq_iff other.history caching other.known other.run other.plain).mp equal)⟩

open Renewed in
/-- The result for the path before the input is taken for the path after it, where the solver would leave the
predicate open. -/
theorem verdict_outlives_index : ∃ (o : AnalysisOptions) (a b c : Abstractor) (path path' : PathFormula)
    (e e' : Edge) (r u : Abstraction) (p : Predicate), History o a ∧
      a.settings.abstraction.useCache = true ∧ p ∈ a.registry.predicates ∧
      (PathFormula.empty.extend e).run = .ok (.ok path) ∧ (path.extend e').run = .ok (.ok path') ∧
      (build (.top .empty) path' [p]).run a = .ok (.ok r, b) ∧
      (build (.top .empty) path' [p]).run b.withoutCache = .ok (.ok u, c) ∧ r.region ≠ u.region := by
  obtain ⟨o, start, a, old, p, remembers, all⟩ := exists_remembers
  obtain ⟨b, c, r, u, repeats⟩ := all renewed (by simp)
  have known : ∀ q ∈ [p], q ∈ start.registry.predicates := List.forall_mem_singleton.mpr remembers.known
  have later := repeats.second.later repeats.later.registry.valid
  refine ⟨o, a, b, c, tested, renewed, test, input, r, u, p, repeats.history, remembers.caching,
    repeats.known p (List.mem_singleton_self p), extend_test, extend_input, repeats.run, repeats.plain, ?_⟩
  rw [ne_eq, repeats.region_eq_iff remembers.valid known (List.cons_ne_nil p []) remembers.new
    (remembers.settings ▸ remembers.caching) rfl, queryOf, reachable_small _ rfl, selected_singleton]
  exact remembers.not_stillRight later

end Abstractor

end ProgramAnalysis
