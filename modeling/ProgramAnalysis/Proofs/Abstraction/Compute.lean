import ProgramAnalysis.Abstraction.Compute
import ProgramAnalysis.Proofs.Abstraction.Abstractor

/-! What is computed for a formula and predicates, and what is remembered of it. The region depends on
nothing but the formula, the predicates, the indices of the predicates and the limits of the solver;
only remembered verdicts come from elsewhere. -/
namespace ProgramAnalysis

open Attempt (Ensures)
open Solver (Refuted)

namespace Verdict

/-- The values of a predicate that a verdict leaves. -/
def Leaves (value : Bool) : Verdict → Prop
  | .holds => value = true
  | .fails => value = false
  | .unknown => True

/-- A valuation agrees with what is known of a predicate. -/
def Allows (d : Diagram) (p : Predicate) (v : Valuation) (w : Verdict) : Prop :=
  w.Leaves (d.eval v p.marker.ref)

theorem eq_of_leaves {w w' : Verdict} (same : ∀ value, w.Leaves value ↔ w'.Leaves value) :
    w = w' := by
  have yes := same true
  have no := same false
  cases w <;> cases w' <;> simp_all [Leaves]

end Verdict

namespace Abstractor

variable {a b c : Abstractor} {d e : Diagram} {f g : Formula} {s : SsaMap} {p : Predicate}
  {ps : List Predicate} {r : Region} {w : Verdict} {limits : SolverLimits}

/-- The verdict of the solver on `g` where `f` holds. -/
def Judged (limits : SolverLimits) (f g : Formula) : Verdict → Prop
  | .holds => Refuted limits (.conj [f, g.negate])
  | .fails => ¬ Refuted limits (.conj [f, g.negate]) ∧ Refuted limits (.conj [f, g])
  | .unknown => ¬ Refuted limits (.conj [f, g.negate]) ∧ ¬ Refuted limits (.conj [f, g])

theorem Judged.unique {w' : Verdict} (first : Judged limits f g w) (second : Judged limits f g w') :
    w = w' := by
  cases w <;> cases w' <;> simp_all [Judged]

theorem exists_judged (limits : SolverLimits) (f g : Formula) : ∃ w, Judged limits f g w := by
  by_cases holds : Refuted limits (.conj [f, g.negate])
  · exact ⟨.holds, holds⟩
  · by_cases fails : Refuted limits (.conj [f, g])
    · exact ⟨.fails, holds, fails⟩
    · exact ⟨.unknown, holds, fails⟩

/-- The verdicts that are remembered anew are right for predicates `ps` at the indices `s` under `f`. -/
structure Judges (f : Formula) (s : SsaMap) (ps : List Predicate) (a b : Abstractor) : Prop
    extends a.Grows b where
  kept : ∀ k w, a.memory.verdicts.lookup k = some w → b.memory.verdicts.lookup k = some w
  judged : ∀ k w, b.memory.verdicts.lookup k = some w →
    a.memory.verdicts.lookup k = some w ∨
      ∃ p ∈ ps, k = (f, p.id) ∧ Judged a.solver.limits f (p.atom.instantiate s) w

/-- No results are remembered, only verdicts. -/
structure Learns (f : Formula) (s : SsaMap) (ps : List Predicate) (a b : Abstractor) : Prop
    extends Judges f s ps a b where
  results : b.memory.results = a.memory.results
  unsatisfiable : b.memory.unsatisfiable = a.memory.unsatisfiable

theorem Quiet.learns (quiet : a.Quiet b) : Learns f s ps a b where
  toGrows := quiet.toGrows
  results := by rw [quiet.memory]
  unsatisfiable := by rw [quiet.memory]
  kept k w := by rw [quiet.memory]; exact id
  judged k w found := .inl (quiet.memory ▸ found)

theorem Judges.trans (first : Judges f s ps a b) (second : Judges f s ps b c) :
    Judges f s ps a c where
  toGrows := first.toGrows.trans second.toGrows
  kept k w found := second.kept k w (first.kept k w found)
  judged k w found := by
    rcases second.judged k w found with found | judged
    · exact first.judged k w found
    · rw [first.limits] at judged
      exact .inr judged

theorem Learns.trans (first : Learns f s ps a b) (second : Learns f s ps b c) :
    Learns f s ps a c :=
  ⟨first.toJudges.trans second.toJudges, second.results.trans first.results,
    second.unsatisfiable.trans first.unsatisfiable⟩

/-- The verdict that is used for a predicate: the one in the memory where there is one. -/
def Told (a : Abstractor) (f : Formula) (s : SsaMap) (p : Predicate) (w : Verdict) : Prop :=
  if a.settings.abstraction.useCache then a.memory.verdicts.lookup (f, p.id) = some w
  else Judged a.solver.limits f (p.atom.instantiate s) w

theorem Told.later (told : a.Told f s p w) (settings : b.settings = a.settings)
    (limits : b.solver.limits = a.solver.limits)
    (kept : ∀ k w, a.memory.verdicts.lookup k = some w → b.memory.verdicts.lookup k = some w) :
    b.Told f s p w := by
  unfold Told at told ⊢
  rw [settings, limits]
  split
  · rename_i caching
    rw [if_pos caching] at told
    exact kept _ _ told
  · rename_i caching
    rwa [if_neg caching] at told

theorem Judges.told (judges : Judges f s ps a b) (told : a.Told f s p w) : b.Told f s p w :=
  told.later judges.settings judges.limits judges.kept

theorem Told.unique {w' : Verdict} (first : a.Told f s p w) (second : a.Told f s p w') : w = w' := by
  unfold Told at first second
  split at first
  · rename_i caching
    rw [if_pos caching] at second
    exact Option.some.inj (first.symm.trans second)
  · rename_i caching
    rw [if_neg caching] at second
    exact first.unique second

theorem Told.exists_iff {good : Verdict → Prop} (told : a.Told f s p w) :
    (∃ w, a.Told f s p w ∧ good w) ↔ good w := by
  constructor
  · rintro ⟨w', told', fits⟩
    exact told'.unique told ▸ fits
  · exact fun fits => ⟨w, told, fits⟩

/-! ### Cartesian -/

theorem start_decides (valid : a.registry.Valid) : Ensures (ask Prover.start) a (fun _ => True)
    (fun _ b => a.Quiet b) fun prover b => a.Quiet b ∧ prover = {} := by
  have started : Ensures Prover.start a.solver (fun _ => False) (fun _ t => t.limits = a.solver.limits)
      fun prover t => t.limits = a.solver.limits ∧ prover = {} := by
    unfold Prover.start
    rw [Solver.count_ensures]
    exact ⟨rfl, rfl⟩
  exact ask_decides valid started

theorem verdictOf_ensures (valid : a.registry.Valid) (f : Formula) (s : SsaMap) (p : Predicate) :
    Ensures (verdictOf ⟨[f]⟩ s p) a (fun _ => True) (fun _ b => a.Quiet b) fun w b =>
      a.Quiet b ∧ Judged a.solver.limits f (p.atom.instantiate s) w := by
  unfold verdictOf
  rw [Attempt.ensures_bind]
  refine (ask_decides valid (Prover.isUnsat_decides _ _)).mono ?_
  rintro answer b ⟨quiet, decides⟩
  cases answer with
  | true => exact ⟨quiet, decides.mp rfl⟩
  | false =>
    have open₁ : ¬ Refuted a.solver.limits (.conj [f, (p.atom.instantiate s).negate]) := fun h =>
      Bool.false_ne_true (decides.mpr h)
    rw [if_neg Bool.false_ne_true, Attempt.ensures_bind]
    refine (ask_decides (valid.grows quiet.registry) (Prover.isUnsat_decides _ _)).imp ?_
      fun _ c quiet' => quiet.trans quiet'
    rintro answer c ⟨quiet', decides'⟩
    rw [quiet.limits] at decides'
    cases answer with
    | true => exact ⟨quiet.trans quiet', open₁, decides'.mp rfl⟩
    | false =>
      exact ⟨quiet.trans quiet', open₁, fun h => Bool.false_ne_true (decides'.mpr h)⟩

def withVerdict (b : Abstractor) (f : Formula) (p : Predicate) (w : Verdict) : Abstractor :=
  { b with memory := { b.memory with verdicts := ((f, p.id), w) :: b.memory.verdicts } }

theorem Quiet.learns_withVerdict (quiet : a.Quiet b) (mem : p ∈ ps)
    (unknown : a.memory.verdicts.lookup (f, p.id) = none)
    (judged : Judged a.solver.limits f (p.atom.instantiate s) w) :
    Learns f s ps a (b.withVerdict f p w) := by
  have lookup (k : Formula × Nat) : (b.withVerdict f p w).memory.verdicts.lookup k =
      if k = (f, p.id) then some w else a.memory.verdicts.lookup k := by
    rw [withVerdict, quiet.memory, List.lookup_cons]
    by_cases same : k = (f, p.id)
    · rw [if_pos same, same, beq_self_eq_true]
    · rw [if_neg same, beq_eq_false_iff_ne.mpr same]
  refine ⟨⟨⟨quiet.registry, quiet.settings, quiet.limits⟩, ?_, ?_⟩, ?_, ?_⟩
  · intro k w' found
    have other : k ≠ (f, p.id) := by
      rintro rfl
      rw [unknown] at found
      cases found
    rw [lookup, if_neg other, found]
  · intro k w' found
    rw [lookup] at found
    split at found
    · rename_i same
      cases found
      exact .inr ⟨p, mem, same, judged⟩
    · exact .inl found
  · show b.memory.results = a.memory.results
    rw [quiet.memory]
  · show b.memory.unsatisfiable = a.memory.unsatisfiable
    rw [quiet.memory]

theorem told_withVerdict (caching : b.settings.abstraction.useCache = true) :
    (b.withVerdict f p w).Told f s p w := by
  unfold Told
  rw [if_pos (show (b.withVerdict f p w).settings.abstraction.useCache = true from caching),
    withVerdict, List.lookup_cons, beq_self_eq_true]

theorem verdict_ensures (valid : a.registry.Valid) (mem : p ∈ ps) :
    Ensures (verdict f ⟨[f]⟩ s p) a (fun _ => True) (fun _ b => Learns f s ps a b) fun w b =>
      Learns f s ps a b ∧ b.Told f s p w := by
  have learns : Learns f s ps a a := Quiet.learns ⟨.refl valid, rfl⟩
  have judges := verdictOf_ensures valid f s p
  unfold verdict
  rw [Attempt.ensures_bind, Attempt.ensures_get, Attempt.ensures_bind, Attempt.ensures_get]
  cases caching : a.settings.abstraction.useCache with
  | false =>
    simp only [Bool.false_eq_true, if_false]
    rw [Attempt.ensures_bind]
    refine judges.imp ?_ fun _ _ quiet => quiet.learns
    rintro w b ⟨quiet, judged⟩
    refine ⟨quiet.learns, ?_⟩
    unfold Told
    rw [quiet.settings, quiet.limits, caching]
    exact judged
  | true =>
    simp only [if_true]
    cases known : a.memory.verdicts.lookup (f, p.id) with
    | some w =>
      refine ⟨learns, ?_⟩
      unfold Told
      rw [caching]
      exact known
    | none =>
      simp only
      rw [Attempt.ensures_bind]
      refine judges.imp ?_ fun _ _ quiet => quiet.learns
      rintro w b ⟨quiet, judged⟩
      rw [Attempt.ensures_bind, recordIn_ensures, Attempt.ensures_pure]
      exact ⟨quiet.learns_withVerdict mem known judged,
        told_withVerdict (quiet.settings ▸ caching)⟩

theorem narrow_ensures (valid : d.Valid) (hasR : d.Has r.ref) (has : d.Has p.marker.ref)
    (w : Verdict) :
    Checked.Ensures (narrow r p w) d (fun _ => True) fun r' e =>
      Region.Reads d e r' fun v => d.eval v r.ref = true ∧ w.Allows d p v := by
  have meets {r' : Region} {e : Diagram} {x : Ref}
      (gives : d.Gives e r'.ref fun v => d.eval v r.ref && d.eval v x) :
      Region.Reads d e r' fun v => d.eval v r.ref = true ∧ d.eval v x = true :=
    ⟨gives.grows, gives.has, fun v => by rw [gives.eval, Bool.and_eq_true]⟩
  cases w with
  | holds => exact (Region.and_gives valid hasR has).mono fun _ _ => meets
  | fails =>
    refine (Region.and_gives valid hasR (Region.has_not has)).mono fun r' e gives =>
      (meets gives).imp fun v => ?_
    rw [Region.eval_not valid has]
    simp [Verdict.Allows, Verdict.Leaves]
  | unknown =>
    exact (Region.reads_self valid hasR).imp fun v => by simp [Verdict.Allows, Verdict.Leaves]

theorem allows_extends (grown : e.Extends d) (valid : d.Valid) (has : d.Has p.marker.ref)
    (v : Valuation) : w.Allows e p v ↔ w.Allows d p v := by
  rw [Verdict.Allows, Verdict.Allows, grown.eval_valid valid has]

/-- The valuations that agree with every verdict. -/
def CartesianHolds (a : Abstractor) (d : Diagram) (f : Formula) (s : SsaMap) (ps : List Predicate)
    (v : Valuation) : Prop :=
  ¬ Refuted a.solver.limits (.conj [f]) ∧ ∀ p ∈ ps, ∃ w, a.Told f s p w ∧ w.Allows d p v

theorem warnOfDisjunctions_ensures (valid : a.registry.Valid) :
    Ensures (warnOfDisjunctions f) a (fun _ => True) (fun _ b => Learns f s ps a b)
      fun _ b => Learns f s ps a b := by
  have grows : a.Grows a := .refl valid
  unfold warnOfDisjunctions
  rw [Attempt.ensures_bind, Attempt.ensures_get]
  split
  · exact ⟨⟨⟨grows.registry, rfl, rfl⟩, fun _ _ => id, fun _ _ => .inl⟩, rfl, rfl⟩
  · exact Quiet.learns ⟨grows, rfl⟩

/-- What the verdicts on some predicates have left of all valuations. -/
structure Narrowed (f : Formula) (s : SsaMap) (ps : List Predicate) (a : Abstractor)
    (done : List Predicate) (b : Abstractor) (r : Region) : Prop where
  learns : Learns f s ps a b
  tells : ∀ p ∈ done, ∃ w, b.Told f s p w
  reads : Region.Reads a.registry.diagram b.registry.diagram r fun v =>
    ∀ p ∈ done, ∃ w, b.Told f s p w ∧ w.Allows a.registry.diagram p v

theorem narrowed_top (valid : a.registry.Valid) (learns : Learns f s ps a b) :
    Narrowed f s ps a [] b .top where
  learns := learns
  tells := by simp
  reads := ((Region.reads_top valid.diagram).mono learns.registry.diagram).imp (by simp)

theorem Narrowed.next {done : List Predicate} (valid : a.registry.Valid)
    (known : p ∈ a.registry.predicates) (mem : p ∈ ps) (narrowed : Narrowed f s ps a done b r) :
    Ensures (do regionsOnly (narrow r p (← verdict f ⟨[f]⟩ s p))) b (fun _ => True)
      (fun _ c => Learns f s ps a c) fun r' c => Narrowed f s ps a (done ++ [p]) c r' := by
  obtain ⟨learns, tells, reads⟩ := narrowed
  have has := (valid.marks p known).has
  rw [Attempt.ensures_bind]
  refine (verdict_ensures (valid.grows learns.registry) mem).imp ?_ fun _ _ => learns.trans
  rintro w c ⟨learnsC, told⟩
  rw [regionsOnly_ensures]
  have grown := (learns.trans learnsC).registry.diagram
  have readsC := reads.mono learnsC.registry.diagram
  refine (narrow_ensures grown.valid readsC.has (grown.has has) w).mono fun r' e next => ?_
  have learnsE : Learns f s ps c (c.withDiagram e) :=
    Quiet.learns ⟨grows_withDiagram next.grows, rfl⟩
  have learnsB := learnsC.trans learnsE
  constructor
  · exact learns.trans learnsB
  · rw [List.forall_mem_append, List.forall_mem_singleton]
    refine ⟨fun q done => ?_, w, learnsE.told told⟩
    obtain ⟨w', told'⟩ := tells q done
    exact ⟨w', learnsB.told told'⟩
  · refine (readsC.trans next).imp fun v => ?_
    rw [readsC.eval, allows_extends grown.nodes valid.diagram has, List.forall_mem_append,
      List.forall_mem_singleton, (learnsE.told told).exists_iff]
    refine and_congr_left fun _ => forall₂_congr fun q done => ?_
    obtain ⟨w', told'⟩ := tells q done
    rw [told'.exists_iff, (learnsB.told told').exists_iff]

theorem narrow_all_ensures (valid : a.registry.Valid)
    (known : ∀ p ∈ ps, p ∈ a.registry.predicates) (learns : Learns f s ps a b) :
    Ensures (ps.foldlM (fun r p => do regionsOnly (narrow r p (← verdict f ⟨[f]⟩ s p))) .top) b
      (fun _ => True) (fun _ c => Learns f s ps a c) fun r c => Narrowed f s ps a ps c r := by
  refine (Attempt.ensures_foldlM (fun rest r b => ∃ done, done ++ rest = ps ∧
    Narrowed f s ps a done b r) ?_ ?_).mono ?_
  · exact ⟨[], rfl, narrowed_top valid learns⟩
  · rintro p rest r b ⟨done, whole, narrowed⟩
    have mem : p ∈ ps := whole ▸ by simp
    apply (narrowed.next valid (known p mem) mem).mono
    intro r' c narrowed
    exact ⟨done ++ [p], by simp [← whole], narrowed⟩
  · rintro r b ⟨done, whole, narrowed⟩
    rw [List.append_nil] at whole
    exact whole ▸ narrowed

theorem cartesian_ensures (valid : a.registry.Valid) (known : ∀ p ∈ ps, p ∈ a.registry.predicates) :
    Ensures (cartesian f s ps) a (fun _ => True) (fun _ b => Learns f s ps a b) fun r b =>
      Learns f s ps a b ∧
        (¬ Refuted a.solver.limits (.conj [f]) → ∀ p ∈ ps, ∃ w, b.Told f s p w) ∧
        Region.Reads a.registry.diagram b.registry.diagram r
          (b.CartesianHolds a.registry.diagram f s ps) := by
  unfold cartesian
  rw [Attempt.ensures_bind]
  refine (start_decides valid).imp ?_ fun _ _ quiet => quiet.learns
  rintro prover b₁ ⟨quiet₁, rfl⟩
  rw [Attempt.ensures_bind]
  have asked := ask_decides (valid.grows quiet₁.registry)
    (Prover.isUnsat_decides ((⟨[]⟩ : Prover).push f) b₁.solver)
  refine asked.imp ?_ fun _ _ quiet => (quiet₁.trans quiet).learns
  rintro refuted b₂ ⟨quiet₂, decides⟩
  have quiet := quiet₁.trans quiet₂
  rw [quiet₁.limits] at decides
  cases refuted with
  -- Nothing holds after an unsatisfiable formula, so no predicate is asked for.
  | true =>
    have refuted : Refuted a.solver.limits (.conj [f]) := decides.mp rfl
    refine ⟨quiet.learns, fun satisfiable => (satisfiable refuted).elim,
      ((Region.reads_bottom valid.diagram).mono quiet.registry.diagram).imp
        fun v => ⟨False.elim, fun holds => holds.1 ?_⟩⟩
    rwa [quiet.limits]
  | false =>
    have satisfiable : ¬ Refuted a.solver.limits (.conj [f]) := fun refuted =>
      Bool.false_ne_true (decides.mpr refuted)
    rw [if_neg Bool.false_ne_true, Attempt.ensures_bind]
    have learns₂ : Learns f s ps a b₂ := quiet.learns
    refine (warnOfDisjunctions_ensures (valid.grows quiet.registry)).imp ?_
      fun _ b learns => learns₂.trans learns
    intro _ b₃ learns₃
    apply (narrow_all_ensures valid known (learns₂.trans learns₃)).mono
    intro r b narrowed
    refine ⟨narrowed.learns, fun _ => narrowed.tells, narrowed.reads.imp fun v => ?_⟩
    unfold CartesianHolds
    rw [narrowed.learns.limits]
    exact ⟨fun told => ⟨satisfiable, told⟩, fun holds => holds.2⟩

/-! ### Boolean -/

def booleanQuery (f : Formula) (s : SsaMap) (ps : List Predicate) : Formula :=
  .conj (f :: (relevant ps).map (definition s))

/-- The valuations that agree with a consistent path of the query. -/
def BooleanHolds (limits : SolverLimits) (d : Diagram) (f : Formula) (s : SsaMap)
    (ps : List Predicate) (v : Valuation) : Prop :=
  if relevant ps = [] then ¬ Refuted limits (booleanQuery f s ps)
  else ∃ k, Skeleton.ofFormula (.conj [booleanQuery f s ps]) = .ok k ∧
    ∃ path ∈ k.diagram.paths k.root, k.Decides limits path true ∧
      Prover.Sees d k ((relevant ps).map fun p => (p.symbol, p.marker)) path v

def BooleanDecided (limits : SolverLimits) (f : Formula) (s : SsaMap) (ps : List Predicate) : Prop :=
  relevant ps ≠ [] → ∃ k, Skeleton.ofFormula (.conj [booleanQuery f s ps]) = .ok k ∧
    ∀ path ∈ k.diagram.paths k.root, ∃ b, k.Decides limits path b

theorem boolean_ensures (valid : a.registry.Valid) (known : ∀ p ∈ ps, p ∈ a.registry.predicates) :
    Ensures (boolean f s ps) a (fun _ => True) (fun _ b => a.Quiet b) fun r b => a.Quiet b ∧
      BooleanDecided a.solver.limits f s ps ∧ Region.Reads a.registry.diagram b.registry.diagram r
        (BooleanHolds a.solver.limits a.registry.diagram f s ps) := by
  unfold boolean BooleanHolds BooleanDecided booleanQuery
  by_cases none : relevant ps = []
  -- Without predicates that can be true the region is one of the constants.
  · simp only [none, List.isEmpty_nil, if_true]
    rw [Attempt.ensures_bind, count_ensures, Attempt.ensures_bind]
    have counted := (Quiet.refl valid).withCounters
      { a.counters with satChecks := a.counters.satChecks + 1 }
    refine (ask_decides (valid.grows counted.registry) (Solver.isUnsat_decides _ _)).imp ?_
      fun _ b => counted.trans
    rintro refuted b ⟨quiet, decides⟩
    replace quiet := counted.trans quiet
    refine ⟨quiet, fun some => (some rfl).elim, ?_⟩
    cases refuted with
    | true =>
      refine ((Region.reads_bottom valid.diagram).mono quiet.registry.diagram).imp fun v => ?_
      exact ⟨False.elim, fun satisfiable => satisfiable (decides.mp rfl)⟩
    | false =>
      refine ((Region.reads_top valid.diagram).mono quiet.registry.diagram).imp fun v => ?_
      exact ⟨fun _ refuted => Bool.false_ne_true (decides.mpr refuted), fun _ => trivial⟩
  · simp only [List.isEmpty_iff, none, if_false]
    have important : ∀ x ∈ (relevant ps).map fun p => (p.symbol, p.marker),
        a.registry.diagram.Has x.2.ref := by
      intro x mem
      obtain ⟨p, inside, rfl⟩ := List.mem_map.mp mem
      exact (valid.marks p (known p (List.mem_of_mem_filter inside))).has
    rw [Attempt.ensures_bind]
    refine (start_decides valid).imp ?_ fun _ _ => id
    rintro prover b₁ ⟨quiet, rfl⟩
    have grown := quiet.registry.diagram
    rw [Attempt.ensures_bind, solve_ensures]
    refine ((Prover.allSat_ensures _ grown.valid fun x mem => grown.has (important x mem)).weaken
      fun _ _ => trivial).imp ?_ ?_
    · rintro answer ⟨solver, e⟩ ⟨k, made, collected⟩
      rw [Attempt.ensures_bind, count_ensures, Attempt.ensures_pure]
      have later := quiet.trans (b₁.quiet_with collected.sameLimits collected.reads.grows)
      have decided : ∀ path ∈ k.diagram.paths k.root, ∃ b, k.Decides b₁.solver.limits path b :=
        collected.decided
      refine ⟨later.withCounters _, fun _ => ⟨k, made, quiet.limits ▸ decided⟩,
        (collected.reads.after grown).imp fun v => ?_⟩
      rw [quiet.limits]
      constructor
      · rintro ⟨path, mem, consistent, sees⟩
        exact ⟨k, made, path, mem, consistent,
          (Prover.sees_extends grown.nodes valid.diagram important v).mp sees⟩
      · rintro ⟨k', made', path, mem, consistent, sees⟩
        cases made.symm.trans made'
        exact ⟨path, mem, consistent,
          (Prover.sees_extends grown.nodes valid.diagram important v).mpr sees⟩
    · rintro - ⟨solver, e⟩ ⟨⟨same, grows⟩, -⟩
      exact quiet.trans (b₁.quiet_with same grows)

/-! ### Both -/

/-- The valuations in the abstraction of `f` over the predicates `ps` at the indices `s`. -/
def Holds (a : Abstractor) (d : Diagram) (f : Formula) (s : SsaMap) (ps : List Predicate)
    (v : Valuation) : Prop :=
  if a.settings.abstraction.cartesian then a.CartesianHolds d f s ps v
  else BooleanHolds a.solver.limits d f s ps v

theorem holds_congr {v : Valuation} (settings : a.settings = b.settings)
    (limits : a.solver.limits = b.solver.limits)
    (verdicts : a.memory.verdicts = b.memory.verdicts) :
    a.Holds d f s ps v ↔ b.Holds d f s ps v := by
  unfold Holds CartesianHolds Told
  rw [settings, limits, verdicts]

/-- Only what a valuation says of the predicates counts. -/
theorem Holds.of_agree {v w : Valuation} (holds : b.Holds d f s ps v)
    (same : ∀ p ∈ ps, d.eval v p.marker.ref = d.eval w p.marker.ref) : b.Holds d f s ps w := by
  unfold Holds at holds ⊢
  split
  · rename_i cartesian
    rw [if_pos cartesian] at holds
    refine ⟨holds.1, fun p mem => ?_⟩
    obtain ⟨verdict, told, allows⟩ := holds.2 p mem
    refine ⟨verdict, told, ?_⟩
    unfold Verdict.Allows at allows ⊢
    rwa [← same p mem]
  · rename_i boolean
    rw [if_neg boolean] at holds
    unfold BooleanHolds at holds ⊢
    split
    · rename_i none
      rwa [if_pos none] at holds
    · rename_i some
      rw [if_neg some] at holds
      obtain ⟨k, made, literals, mem, consistent, sees⟩ := holds
      refine ⟨k, made, literals, mem, consistent, fun l visible => ?_⟩
      obtain ⟨-, -, f, important, -, -⟩ := Prover.of_mem_visible visible
      obtain ⟨p, inside, pair⟩ := List.mem_map.mp important
      have marker : p.marker = l.1 := congrArg Prod.snd pair
      rw [← sees l visible, ← marker, same p (List.mem_of_mem_filter inside)]

def queryOf (a : Abstractor) (base : Abstraction) (path : PathFormula) (ps : List Predicate) :
    AbstractionQuery :=
  ⟨reachable a.settings.formula base path, ps.map (·.id)⟩

/-- The abstraction that was computed, and what is remembered of it. -/
structure Computed (q : AbstractionQuery) (path : PathFormula) (ps : List Predicate)
    (a b : Abstractor) (result : Abstraction) : Prop extends Judges q.formula path.ssa ps a b where
  decided : a.settings.abstraction.cartesian = false →
    BooleanDecided a.solver.limits q.formula path.ssa ps
  told : a.settings.abstraction.cartesian = true →
    ¬ Refuted a.solver.limits (.conj [q.formula]) → ∀ p ∈ ps, ∃ w, b.Told q.formula path.ssa p w
  reads : Region.Reads a.registry.diagram b.registry.diagram result.region
    (b.Holds a.registry.diagram q.formula path.ssa ps)
  formula : b.registry.toFormula result.region = .ok result.formula
  instantiated : result.instantiated = result.formula.instantiate path.ssa
  block : result.block = path
  results : b.memory.results = if a.settings.abstraction.useCache then
    (q, result) :: a.memory.results else a.memory.results
  unsatisfiable : b.memory.unsatisfiable =
    if a.settings.abstraction.useCache ∧ result.isFalse = true then
      q.formula :: a.memory.unsatisfiable else a.memory.unsatisfiable

theorem regionOf_ensures (valid : a.registry.Valid) (known : ∀ p ∈ ps, p ∈ a.registry.predicates) :
    Ensures (regionOf f s ps) a (fun _ => True) (fun _ b => Learns f s ps a b) fun r b =>
      Learns f s ps a b ∧
        (a.settings.abstraction.cartesian = false → BooleanDecided a.solver.limits f s ps) ∧
        (a.settings.abstraction.cartesian = true → ¬ Refuted a.solver.limits (.conj [f]) →
          ∀ p ∈ ps, ∃ w, b.Told f s p w) ∧
        Region.Reads a.registry.diagram b.registry.diagram r
          (b.Holds a.registry.diagram f s ps) := by
  unfold regionOf
  rw [Attempt.ensures_bind, Attempt.ensures_get]
  split
  · rename_i cartesian
    refine (cartesian_ensures valid known).mono fun r b ⟨learns, told, reads⟩ =>
      ⟨learns, fun boolean => absurd cartesian (by simp [boolean]), fun _ => told,
        reads.imp fun v => ?_⟩
    unfold Holds
    rw [learns.settings, if_pos cartesian]
  · rename_i boolean
    refine (boolean_ensures valid known).imp (fun r b ⟨quiet, decided, reads⟩ =>
      ⟨quiet.learns, fun _ => decided, fun cartesian => (boolean cartesian).elim, reads.imp fun v => ?_⟩)
      fun _ _ quiet => quiet.learns
    unfold Holds
    rw [quiet.settings, if_neg boolean, quiet.limits]

theorem recorded_verdicts (o : AbstractionOptions) (number : Nat) (q : AbstractionQuery)
    (result : Abstraction) (m : AbstractionMemory) :
    (recorded o number q ps result m).verdicts = m.verdicts := by
  simp only [recorded]
  split <;> split <;> rfl

theorem recorded_results (o : AbstractionOptions) (number : Nat) (q : AbstractionQuery)
    (result : Abstraction) (m : AbstractionMemory) :
    (recorded o number q ps result m).results =
      if o.useCache then (q, result) :: m.results else m.results := by
  simp only [recorded]
  split <;> split <;> rfl

theorem recorded_unsatisfiable (o : AbstractionOptions) (number : Nat) (q : AbstractionQuery)
    (result : Abstraction) (m : AbstractionMemory) :
    (recorded o number q ps result m).unsatisfiable =
      if o.useCache ∧ result.isFalse = true then q.formula :: m.unsatisfiable
      else m.unsatisfiable := by
  simp only [recorded, keep]
  cases o.useCache <;> cases result.isFalse <;> split <;> rfl

theorem compute_ensures (valid : a.registry.Valid) (known : ∀ p ∈ ps, p ∈ a.registry.predicates)
    (number : Nat) (q : AbstractionQuery) (path : PathFormula) :
    Ensures (compute number q path ps) a (fun _ => True)
      (fun _ b => Learns q.formula path.ssa ps a b)
      fun result b => Computed q path ps a b result := by
  unfold compute ofRegion
  rw [Attempt.ensures_bind]
  refine (regionOf_ensures valid known).mono fun r b ⟨learns, decided, told, reads⟩ => ?_
  simp only [Attempt.ensures_bind, Attempt.ensures_get, Attempt.ensures_ofOutcome_lift,
    Attempt.ensures_pure]
  refine ⟨fun formula made => ?_, fun _ _ => trivial⟩
  rw [recordIn_ensures]
  generalize new : recorded b.settings.abstraction number q ps
    ⟨r, formula, formula.instantiate path.ssa, path⟩ b.memory = memory
  -- What is recorded are results. The verdicts are those that the computation has left.
  have verdicts : memory.verdicts = b.memory.verdicts := by rw [← new, recorded_verdicts]
  have later : Judges q.formula path.ssa ps b { b with memory := memory } :=
    ⟨⟨.refl (valid.grows learns.registry), rfl, rfl⟩, by rw [verdicts]; exact fun _ _ => id,
      by rw [verdicts]; exact fun _ _ => .inl⟩
  refine ⟨learns.toJudges.trans later, decided, fun cartesian open₁ p mem => ?_,
    reads.imp fun v => ?_, made, rfl, rfl, ?_, ?_⟩
  · obtain ⟨w, told⟩ := told cartesian open₁ p mem
    exact ⟨w, later.told told⟩
  · exact holds_congr rfl rfl verdicts.symm
  · rw [← learns.results, ← learns.settings, ← new]
    exact recorded_results ..
  · rw [← learns.unsatisfiable, ← learns.settings, ← new]
    exact recorded_unsatisfiable ..

/-! ### Built -/

def selected (ps : List Predicate) : List Predicate := withoutRepeats (Predicate.inOrder ps)

theorem mem_of_mem_withoutRepeats : ∀ {ps : List Predicate}, p ∈ withoutRepeats ps → p ∈ ps
  | [], mem => mem
  | [_], mem => mem
  | x :: y :: ps, mem => by
    unfold withoutRepeats at mem
    split at mem
    · exact List.mem_cons_of_mem _ (mem_of_mem_withoutRepeats mem)
    · rcases List.mem_cons.mp mem with rfl | mem
      · exact List.mem_cons_self
      · exact List.mem_cons_of_mem _ (mem_of_mem_withoutRepeats mem)

theorem mem_of_mem_selected (mem : p ∈ selected ps) : p ∈ ps :=
  List.mem_mergeSort.mp (mem_of_mem_withoutRepeats mem)

def recalled? (a : Abstractor) (base : Abstraction) (path : PathFormula) (ps : List Predicate) :
    Option Abstraction :=
  if a.settings.abstraction.useCache then
    remembered? a.memory (a.queryOf base path (selected ps))
      (strengthened a.settings.formula path.formula) path
  else none

/-- Where the abstraction of a path comes from. -/
inductive Built (base : Abstraction) (path : PathFormula) (ps : List Predicate) (a b : Abstractor)
    (result : Abstraction) : Prop
  | trivial (none : ps = []) (quiet : a.Quiet b) (top : result = .top path)
  | remembered (some : ps ≠ []) (quiet : a.Quiet b)
      (found : a.recalled? base path ps = .some result)
  | computed (some : ps ≠ []) (new : a.recalled? base path ps = none)
      (computed : Computed (a.queryOf base path (selected ps)) path (selected ps) a b result)

theorem Judges.of_withCounters {n : AbstractionCounters}
    (judges : Judges f s ps { a with counters := n } b) : Judges f s ps a b :=
  ⟨⟨judges.registry, judges.settings, judges.limits⟩, judges.kept, judges.judged⟩

theorem build_ensures (valid : a.registry.Valid) (known : ∀ p ∈ ps, p ∈ a.registry.predicates)
    (base : Abstraction) (path : PathFormula) :
    Ensures (build base path ps) a (fun _ => True)
      (fun _ b => Learns (a.queryOf base path (selected ps)).formula path.ssa (selected ps) a b)
      fun result b => Built base path ps a b result := by
  have quiet (n : AbstractionCounters) := (Quiet.refl valid).withCounters n
  unfold build
  rw [Attempt.ensures_bind, count_ensures, Attempt.ensures_bind, Attempt.ensures_get]
  cases ps with
  | nil =>
    simp only [List.isEmpty_nil, if_true]
    exact .trivial rfl (quiet _) rfl
  | cons x xs =>
    have some : x :: xs ≠ [] := List.cons_ne_nil x xs
    simp only [List.isEmpty_cons, Bool.false_eq_true, if_false, Attempt.ensures_bind,
      Attempt.ensures_get]
    split
    · rename_i r found
      exact .remembered some (quiet _) found
    · rename_i found
      have counted := quiet { a.counters with computations := a.counters.computations + 1 }
      refine (compute_ensures (valid.grows counted.registry)
        (fun p mem => known p (mem_of_mem_selected mem)) _ _ path).imp ?_ fun _ b learns => ?_
      · intro result b computed
        exact .computed some found ⟨computed.toJudges.of_withCounters, computed.decided,
          computed.told, computed.reads, computed.formula, computed.instantiated, computed.block,
          computed.results, computed.unsatisfiable⟩
      · exact ⟨learns.toJudges.of_withCounters, learns.results, learns.unsatisfiable⟩

end Abstractor

end ProgramAnalysis
