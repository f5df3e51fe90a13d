import Mathlib.Algebra.Order.BigOperators.Group.List
import ProgramAnalysis.Proofs.Region
import ProgramAnalysis.Proofs.Solver.Query
import ProgramAnalysis.Proofs.Table.NameMap

/-! All models of a formula, seen through some of its propositional variables: the region that is collected
is the union of the consistent paths of the skeleton, each as the literals of those variables. It only needs
the nodes of these literals, and of the unions on the way. -/
namespace ProgramAnalysis

open Attempt (Ensures)
open Diagram (OnlyOn)

namespace Prover

variable {d e : Diagram} {k : Skeleton} {limits : SolverLimits} {important : List (Formula × Region)}
  {path : List Int} {xs : Finset Nat}

/-- The variables of the skeleton with the regions that they are seen through. -/
def projection (k : Skeleton) (important : List (Formula × Region)) : List (Nat × Region) :=
  (important.filterMap fun (f, r) => (k.var? f).map (·, r)).reverse

/-- What is seen of a path. -/
def visible (k : Skeleton) (important : List (Formula × Region)) (path : List Int) :
    List (Region × Bool) :=
  path.filterMap fun lit =>
    ((projection k important).lookup lit.natAbs).map fun r => (r, decide (0 < lit))

/-- A valuation agrees with what is seen of a path. -/
def Sees (d : Diagram) (k : Skeleton) (important : List (Formula × Region)) (path : List Int)
    (v : Valuation) : Prop :=
  ∀ l ∈ visible k important path, d.eval v l.1.ref = l.2

theorem of_lookup_projection {x : Nat} {r : Region}
    (known : (projection k important).lookup x = some r) :
    ∃ f, (f, r) ∈ important ∧ k.var? f = some x := by
  have pair := List.mem_reverse.mp (NameMap.mem_of_lookup known)
  obtain ⟨⟨f, r'⟩, mem, named⟩ := List.mem_filterMap.mp pair
  obtain ⟨x', var, same⟩ := Option.map_eq_some_iff.mp named
  cases same
  exact ⟨f, mem, var⟩

theorem of_mem_visible {l : Region × Bool} (mem : l ∈ visible k important path) :
    ∃ lit ∈ path, ∃ f, (f, l.1) ∈ important ∧ k.var? f = some lit.natAbs ∧
      l.2 = decide (0 < lit) := by
  obtain ⟨lit, inside, found⟩ := List.mem_filterMap.mp mem
  obtain ⟨r, known, rfl⟩ := Option.map_eq_some_iff.mp found
  obtain ⟨f, pair, var⟩ := of_lookup_projection known
  exact ⟨lit, inside, f, pair, var, rfl⟩

theorem getElem?_of_var? {f : Formula} {x : Nat} (var : k.var? f = some x) :
    k.atoms[x - 1]? = some f := by
  obtain ⟨i, found, rfl⟩ := Option.map_eq_some_iff.mp var
  exact getElem?_of_idxOf? found

/-- A literal about an important variable is seen, if the variable stands for one region. -/
theorem mem_visible {f : Formula} {r : Region} {b : Bool} (nodup : k.atoms.toList.Nodup)
    (nonzero : ∀ lit ∈ path, lit.natAbs ≠ 0) (pair : (f, r) ∈ important)
    (single : ∀ r', (f, r') ∈ important → r' = r) (literal : (f, b) ∈ k.literals path) :
    (r, b) ∈ visible k important path := by
  obtain ⟨lit, inside, found⟩ := List.mem_filterMap.mp literal
  obtain ⟨a, here, same⟩ := Option.map_eq_some_iff.mp found
  cases same
  have var : k.var? f = some lit.natAbs := by
    rw [Skeleton.var?, idxOf?_of_getElem? nodup here, Option.map_some,
      Nat.sub_add_cancel (Nat.pos_of_ne_zero (nonzero lit inside))]
  have projected : (lit.natAbs, r) ∈ projection k important :=
    List.mem_reverse.mpr (List.mem_filterMap.mpr ⟨(f, r), pair, by simp [var]⟩)
  refine List.mem_filterMap.mpr ⟨lit, inside, ?_⟩
  cases known : (projection k important).lookup lit.natAbs with
  | none =>
    have absent := List.lookup_eq_none_iff.mp known _ projected
    simp at absent
  | some r' =>
    obtain ⟨g, pair', var'⟩ := of_lookup_projection known
    cases here.symm.trans (getElem?_of_var? var')
    rw [single r' pair', Option.map_some]

/-- A path whose literals hold is seen by every valuation that gives the regions the truth values of what
they stand for. -/
theorem sees_of_agrees {ops : Operators} {m : Assignment} {v : Valuation}
    (holds : k.Holds ops m path)
    (agrees : ∀ x ∈ important, d.eval v x.2.ref = x.1.holds ops m) : Sees d k important path v := by
  intro l mem
  obtain ⟨lit, inside, f, pair, var, value⟩ := of_mem_visible mem
  have literal : (f, decide (0 < lit)) ∈ k.literals path :=
    List.mem_filterMap.mpr ⟨lit, inside, by rw [getElem?_of_var? var]; rfl⟩
  exact ((agrees _ pair).trans (holds _ literal)).trans value.symm

theorem has_of_mem_visible (has : ∀ x ∈ important, d.Has x.2.ref) :
    ∀ l ∈ visible k important path, d.Has l.1.ref := by
  intro l mem
  obtain ⟨-, -, f, inside, -, -⟩ := of_mem_visible mem
  exact has _ inside

/-- The valuations that see a path agree with its literals about important variables, each of which stands
for one region. -/
theorem sees_iff {f : Formula} {v : Valuation} (encodes : k.Encodes f)
    (mem : path ∈ k.diagram.paths k.root)
    (single : ∀ x ∈ important, ∀ y ∈ important, x.1 = y.1 → x.2 = y.2) :
    Sees d k important path v ↔
      ∀ x ∈ important, ∀ b, (x.1, b) ∈ k.literals path → d.eval v x.2.ref = b := by
  constructor
  · intro sees x pair b literal
    have nonzero := Diagram.natAbs_ne_zero_of_mem_paths encodes.varsBelow mem
    exact sees (x.2, b) (mem_visible encodes.faithful.nodup nonzero pair
      (fun r other => single _ other x pair rfl) literal)
  · intro agrees l seen
    obtain ⟨lit, inside, f, pair, var, sign⟩ := of_mem_visible seen
    have literal : (f, decide (0 < lit)) ∈ k.literals path :=
      List.mem_filterMap.mpr ⟨lit, inside, by rw [getElem?_of_var? var]; rfl⟩
    rw [agrees _ pair _ literal, sign]

theorem sees_extends (grown : e.Extends d) (valid : d.Valid) (has : ∀ x ∈ important, d.Has x.2.ref)
    (v : Valuation) : Sees e k important path v ↔ Sees d k important path v :=
  forall₂_congr fun l mem => by
    rw [grown.eval_valid valid (has_of_mem_visible has l mem)]

theorem sees_congr (only : ∀ x ∈ important, OnlyOn xs (d.eval · x.2.ref)) {v w : Valuation}
    (same : ∀ x ∈ xs, v x = w x) : Sees d k important path v ↔ Sees d k important path w := by
  refine forall₂_congr fun l mem => ?_
  obtain ⟨-, -, f, inside, -, -⟩ := of_mem_visible mem
  exact Eq.congr_left (only _ inside v w same)

theorem ensures_anyM_run {ε σ τ α : Type} {bad : Violation → Prop} {fail : ε → σ → Prop}
    {collect : α → StateT τ (Attempt ε σ) Bool} {xs : List α} {t : τ} {s : σ}
    (inv : List α → τ → σ → Prop) (start : inv xs t s)
    (step : ∀ x rest t s, inv (x :: rest) t s → Ensures ((collect x).run t) s bad fail
      fun r s' => r.1 = false ∧ inv rest r.2 s') :
    Ensures ((xs.anyM collect).run t) s bad fail fun r s' => inv [] r.2 s' := by
  induction xs generalizing t s with
  | nil => exact start
  | cons x xs ih =>
    rw [List.anyM, StateT.run_bind, Attempt.ensures_bind]
    refine (step x xs t s start).mono ?_
    rintro ⟨b, t'⟩ s' ⟨rfl, kept⟩
    exact ih kept

/-- A valuation agrees with what is seen of one of the consistent paths. -/
def Meets (limits : SolverLimits) (d : Diagram) (k : Skeleton) (important : List (Formula × Region))
    (paths : List (List Int)) (v : Valuation) : Prop :=
  ∃ path ∈ paths, k.Decides limits path true ∧ Sees d k important path v

/-- The functions of the nodes for a consistent path, and for it together with those before it. -/
def Needs (limits : SolverLimits) (d : Diagram) (k : Skeleton) (important : List (Formula × Region))
    (g : Valuation → Bool) : Prop :=
  ∃ done path rest, done ++ path :: rest = k.diagram.paths k.root ∧ k.Decides limits path true ∧
    (Region.CubeNeeds d (visible k important path) g ∨
      Region.Requires (Meets limits d k important (done ++ [path])) g)

/-- The nodes of the region of all models are too many. -/
def Exhausts (p : Prover) (limits : SolverLimits) (d : Diagram) (important : List (Formula × Region))
    (v : Violation) : Prop :=
  ∃ k, Skeleton.ofFormula p.conjunction = .ok k ∧ d.Exhausts (Needs limits d k important) v

theorem meets_concat {done : List (List Int)} {v : Valuation} (decides : k.Decides limits path true) :
    (Meets limits d k important done v ∨ Sees d k important path v) ↔
      Meets limits d k important (done ++ [path]) v := by
  simp [Meets, or_and_right, exists_or, decides]

/-- What was collected from the paths that were looked at. -/
structure Collected (limits : SolverLimits) (d : Diagram) (k : Skeleton)
    (important : List (Formula × Region)) (done : List (List Int)) (answer : AllSat)
    (s : Solver × Diagram) : Prop where
  sameLimits : s.1.limits = limits
  decided : ∀ path ∈ done, ∃ b, k.Decides limits path b
  reads : Region.Reads d s.2 answer.region (Meets limits d k important done)

theorem solver_ensures {α : Type} {act : SolverM α} {s : Solver × Diagram}
    {bad : Violation → Prop} {fail : SolverFailure → Solver × Diagram → Prop}
    {good : α → Solver × Diagram → Prop} :
    Ensures (RegionSolverM.solver act) s bad fail good ↔
      Ensures act s.1 bad (fun e t => fail e (t, s.2)) fun a t => good a (t, s.2) := by
  unfold RegionSolverM.solver
  rw [Attempt.ensures_zoom]
  rfl

theorem regions_ensures {α : Type} {act : DiagramM α} {s : Solver × Diagram}
    {bad : Violation → Prop} {fail : SolverFailure → Solver × Diagram → Prop}
    {good : α → Solver × Diagram → Prop} :
    Ensures (RegionSolverM.regions act) s bad fail good ↔
      Checked.Ensures act s.2 bad fun a d => good a (s.1, d) := by
  unfold RegionSolverM.regions
  rw [Attempt.ensures_lift, Checked.ensures_zoom]

theorem Collected.skip {done : List (List Int)} {answer : AllSat} {t : Solver × Diagram} {s : Solver}
    (collected : Collected limits d k important done answer t) (same : s.limits = limits)
    (decides : k.Decides limits path false) :
    Collected limits d k important (done ++ [path]) answer (s, t.2) := by
  refine ⟨same, ?_, collected.reads.imp fun v => ?_⟩
  · rw [List.forall_mem_append]
    exact ⟨collected.decided, fun q mem => ⟨false, List.mem_singleton.mp mem ▸ decides⟩⟩
  · constructor
    · rintro ⟨q, mem, rest⟩
      exact ⟨q, List.mem_append_left _ mem, rest⟩
    · rintro ⟨q, mem, consistent, sees⟩
      rcases List.mem_append.mp mem with mem | mem
      · exact ⟨q, mem, consistent, sees⟩
      · obtain rfl := List.mem_singleton.mp mem
        exact (Bool.false_ne_true (decides.unique consistent)).elim

theorem Collected.add {d₀ : Diagram} {S : (Valuation → Bool) → Prop} {done : List (List Int)}
    {answer : AllSat} {t : Solver × Diagram} {s : Solver}
    (collected : Collected limits d k important done answer t) (begun : d₀.Builds S t.2)
    (valid : d.Valid) (has : ∀ x ∈ important, d.Has x.2.ref) (same : s.limits = limits)
    (decides : k.Decides limits path true)
    (needs : ∀ g, Region.CubeNeeds d (visible k important path) g ∨
      Region.Requires (Meets limits d k important (done ++ [path])) g → S g) :
    Checked.Ensures (do answer.region.or (← Region.cube (visible k important path))) t.2
      (d₀.Exhausts S) fun region e =>
        Collected limits d k important (done ++ [path]) ⟨region, answer.count + 1⟩ (s, e) ∧
          d₀.Builds S e := by
  have grown := collected.reads.grows
  have hasVisible : ∀ l ∈ visible k important path, d.Has l.1.ref := has_of_mem_visible has
  have sees (v : Valuation) : Sees t.2 k important path v ↔ Sees d k important path v :=
    sees_extends grown.nodes valid has v
  have needsCube (g : Valuation → Bool) (of : Region.CubeNeeds t.2 (visible k important path) g) : S g := by
    obtain ⟨ls, before, requires⟩ := of
    refine needs g (.inl ⟨ls, before, requires.congr fun v => forall₂_congr fun l mem => ?_⟩)
    rw [grown.nodes.eval_valid valid (hasVisible l (before.subset mem))]
  rw [Checked.ensures_bind]
  apply (Region.cube_ensures begun (fun l mem => grown.has (hasVisible l mem)) needsCube).mono
  rintro cube d₁ ⟨cubeReads, builds⟩
  have means (v : Valuation) : (Meets limits d k important done v ∨ d₁.eval v cube.ref = true) ↔
      Meets limits d k important (done ++ [path]) v := by
    rw [cubeReads.eval, ← meets_concat decides]
    exact or_congr_right (sees v)
  apply ((collected.reads.mono cubeReads.grows).or builds cubeReads.has fun g of =>
    needs g (.inr (of.congr means))).mono
  rintro region d₂ ⟨reads, builds⟩
  refine ⟨⟨same, ?_, reads.imp means⟩, builds⟩
  rw [List.forall_mem_append]
  exact ⟨collected.decided, fun q mem => ⟨true, List.mem_singleton.mp mem ▸ decides⟩⟩

theorem ensures_run_liftM {ε σ τ α : Type} {bad : Violation → Prop} {fail : ε → σ → Prop}
    {act : Attempt ε σ α} {t : τ} {s : σ} {good : α × τ → σ → Prop} :
    Ensures ((liftM act : StateT τ (Attempt ε σ) α).run t) s bad fail good ↔
      Ensures act s bad fail fun a s' => good (a, t) s' := by
  change Ensures (do return (← act, t)) s bad fail good ↔ _
  rw [Attempt.ensures_bind]
  rfl

/-- The solver keeps its limits and the diagram only grows. -/
def Keeps (s t : Solver × Diagram) : Prop := t.1.limits = s.1.limits ∧ s.2.Grows t.2

/-- The region is the union of the consistent paths. Without a violation in the check of a path, only too
many nodes keep it from being made. -/
theorem allSat_ensures (p : Prover) {s : Solver × Diagram} (valid : s.2.Valid)
    (has : ∀ x ∈ important, s.2.Has x.2.ref) :
    Ensures (p.allSat important) s
      (fun v => p.Exhausts s.1.limits s.2 important v ∨ Solver.Interrupted s.1.limits p.conjunction v)
      (fun e t => Keeps s t ∧ Solver.Unanswered s.1.limits p.conjunction e) fun answer t =>
        ∃ k, Skeleton.ofFormula p.conjunction = .ok k ∧
          Collected s.1.limits s.2 k important (k.diagram.paths k.root) answer t := by
  unfold allSat
  rw [Attempt.ensures_bind, solver_ensures]
  unfold Solver.count
  rw [Attempt.ensures_modify, Attempt.ensures_bind, Attempt.ensures_lift, Checked.ensures_liftM]
  refine ⟨fun k made => ?_, fun v broken => .inr (.inl broken)⟩
  dsimp only
  rw [Attempt.ensures_bind, Diagram.anyPath_eq]
  -- Of the paths so far, `done` are in the region, and all new nodes are for them.
  refine (ensures_anyM_run (fun rest answer t => ∃ done, done ++ rest = k.diagram.paths k.root ∧
    Collected s.1.limits s.2 k important done answer t ∧
      s.2.Builds (Needs s.1.limits s.2 k important) t.2) ?_ ?_).mono ?_
  · refine ⟨[], by simp, ⟨rfl, fun path mem => (List.not_mem_nil mem).elim, ?_⟩, .refl valid⟩
    exact (Region.reads_bottom valid).imp (by simp [Meets])
  · rintro path rest answer t ⟨done, whole, collected, builds⟩
    rw [StateT.run_bind, Attempt.ensures_bind, ensures_run_liftM, solver_ensures]
    have checked := Solver.checkPath_decides (k := k) path t.1
    rw [collected.sameLimits] at checked
    have mem : path ∈ k.diagram.paths k.root := by simp [← whole]
    refine (checked.weaken fun v breaks => .inr (.inr ⟨k, made, path, mem, breaks⟩)).imp ?_ ?_
    · rintro consistent s' ⟨same, decides⟩
      cases consistent with
      | false => exact ⟨rfl, done ++ [path], by simp [← whole], collected.skip same decides, builds⟩
      | true =>
        have added := collected.add builds valid has same decides fun g of =>
          (⟨done, path, rest, whole, decides, of⟩ : Needs s.1.limits s.2 k important g)
        rw [Checked.ensures_bind] at added
        simp only [if_true]
        rw [StateT.run_bind, Attempt.ensures_bind, ensures_run_liftM, regions_ensures]
        refine added.imp (fun cube d₁ rest => ?_) fun v exhausts => .inl ⟨k, made, exhausts⟩
        rw [StateT.run_bind, Attempt.ensures_bind, StateT.run_get, Attempt.ensures_pure,
          StateT.run_bind, Attempt.ensures_bind, ensures_run_liftM, regions_ensures]
        refine rest.imp (fun region d₂ ⟨collected', builds'⟩ => ?_) fun v exhausts =>
          .inl ⟨k, made, exhausts⟩
        exact ⟨rfl, done ++ [path], by simp [← whole], collected', builds'⟩
    · rintro e s' ⟨same, fails⟩
      exact ⟨⟨same, collected.reads.grows⟩, k, made, path, mem, fails⟩
  · rintro ⟨b, answer⟩ t ⟨done, whole, collected, -⟩
    rw [List.append_nil] at whole
    exact ⟨k, made, whole ▸ collected⟩

theorem allSat_returns (p : Prover) {s : Solver × Diagram} (valid : s.2.Valid)
    (has : ∀ x ∈ important, s.2.Has x.2.ref)
    (answered : Solver.Answered s.1.limits p.conjunction) :
    Ensures (p.allSat important) s (p.Exhausts s.1.limits s.2 important) (fun _ _ => False)
      fun answer t => ∃ k, Skeleton.ofFormula p.conjunction = .ok k ∧
        Collected s.1.limits s.2 k important (k.diagram.paths k.root) answer t := by
  apply ((p.allSat_ensures valid has).weaken ?_).imp (fun _ _ => id)
  · exact fun e t fails => answered.not_unanswered fails.2
  · exact fun v full => full.resolve_right answered.not_interrupted

/-! ### How many nodes -/

/-- A bound for the nodes of the region of all models, seen through regions of `n` variables. -/
def room (p : Prover) (n : Nat) : Nat :=
  2 ^ p.conjunction.leaves.dedup.length * ((p.conjunction.leaves.dedup.length + 1) * 3 ^ n)

theorem length_paths_le {p : Prover} (made : Skeleton.ofFormula p.conjunction = .ok k)
    (important : List (Formula × Region)) :
    (k.diagram.paths k.root).length ≤ 2 ^ p.conjunction.leaves.dedup.length ∧
      ∀ path ∈ k.diagram.paths k.root,
        (visible k important path).length ≤ p.conjunction.leaves.dedup.length := by
  have encodes := Skeleton.ofFormula_encodes made
  have ordered : k.diagram.Ordered := encodes.faithful.valid.ordered
  have few : k.atoms.size ≤ p.conjunction.leaves.dedup.length :=
    encodes.atoms ▸ Skeleton.size_atomsOf_le p.conjunction
  have inUse (i : Nat) (node : Node) (inside : k.diagram.nodes[i]? = some node) :
      node.var ≤ p.conjunction.leaves.dedup.length :=
    Nat.le_trans (encodes.faithful.valid.var_le i node inside) (encodes.faithful.vars ▸ few)
  constructor
  · have level := k.diagram.level_ne_zero k.root
    exact Nat.le_trans (Diagram.length_paths_le ordered inUse k.root)
      (Nat.pow_le_pow_right (by decide) (by omega))
  · exact fun path mem => Nat.le_trans (List.length_filterMap_le _ _)
      (Diagram.length_path_le ordered encodes.varsBelow inUse mem)

open Classical in
/-- The functions that all models need: for each path a union, and a conjunction for each literal. -/
noncomputable def functions (limits : SolverLimits) (d : Diagram) (k : Skeleton)
    (important : List (Formula × Region)) : List (Valuation → Bool) :=
  (k.diagram.paths k.root).zipIdx.flatMap fun (path, i) =>
    (fun v => decide (Meets limits d k important ((k.diagram.paths k.root).take (i + 1)) v)) ::
      (List.range (visible k important path).length).map fun j v =>
        decide (∀ l ∈ (visible k important path).take (j + 1), d.eval v l.1.ref = l.2)

theorem length_functions_le {p : Prover} (made : Skeleton.ofFormula p.conjunction = .ok k)
    (limits : SolverLimits) (d : Diagram) (important : List (Formula × Region)) :
    (functions limits d k important).length ≤ 2 ^ p.conjunction.leaves.dedup.length *
      (p.conjunction.leaves.dedup.length + 1) := by
  obtain ⟨paths, seen⟩ := length_paths_le made important
  unfold functions
  rw [List.length_flatMap]
  refine Nat.le_trans (List.sum_le_card_nsmul _ (p.conjunction.leaves.dedup.length + 1) ?_) ?_
  · rw [List.forall_mem_map]
    rintro ⟨path, i⟩ mem
    have inside := List.mem_of_getElem? (List.mem_zipIdx_iff_getElem?.mp mem)
    simpa using seen path inside
  · rw [List.length_map, List.length_zipIdx, Nat.nsmul_eq_mul]
    exact Nat.mul_le_mul_right _ paths

open Classical in
theorem Needs.among {g : Valuation → Bool} (needs : Needs limits d k important g) :
    (∃ b, ∀ v, g v = b) ∨ ∃ m ∈ functions limits d k important, Diagram.Cofactor m g := by
  obtain ⟨done, path, rest, whole, -, part⟩ := needs
  have here : (path, done.length) ∈ (k.diagram.paths k.root).zipIdx := by
    rw [List.mem_zipIdx_iff_getElem?, ← whole]
    simp
  rcases part with ⟨ls, before, requires⟩ | requires
  · cases ls with
    | nil =>
      have only : OnlyOn ∅ g := requires.onlyOn fun _ _ _ => by simp
      exact .inl ⟨g fun _ => false, fun v => only v _ (by simp)⟩
    | cons l ls =>
      refine .inr ⟨_, List.mem_flatMap.mpr ⟨_, here, List.mem_cons_of_mem _ ?_⟩, requires.cofactor⟩
      refine List.mem_map.mpr ⟨ls.length, List.mem_range.mpr before.length_le, ?_⟩
      refine funext fun v => decide_eq_decide.mpr ?_
      rw [show ls.length + 1 = (l :: ls).length from rfl, ← List.prefix_iff_eq_take.mp before]
  · have first : (k.diagram.paths k.root).take (done.length + 1) = done ++ [path] := by
      rw [← whole, List.take_length_add_append]
      rfl
    refine .inr ⟨_, List.mem_flatMap.mpr ⟨_, here, ?_⟩, requires.cofactor⟩
    dsimp only
    rw [first]
    exact List.mem_cons_self

theorem onlyOn_functions (only : ∀ x ∈ important, OnlyOn xs (d.eval · x.2.ref)) :
    ∀ m ∈ functions limits d k important, OnlyOn xs m := by
  intro m mem
  obtain ⟨⟨path, i⟩, -, mem⟩ := List.mem_flatMap.mp mem
  intro v w same
  rcases List.mem_cons.mp mem with rfl | mem
  · exact decide_eq_decide.mpr <| exists_congr fun q =>
      and_congr_right fun _ => and_congr_right fun _ => sees_congr only same
  · obtain ⟨j, -, rfl⟩ := List.mem_map.mp mem
    refine decide_eq_decide.mpr (forall₂_congr fun l inside => ?_)
    obtain ⟨-, -, f, seen, -, -⟩ := of_mem_visible (List.mem_of_mem_take inside)
    exact Eq.congr_left (only _ seen v w same)

theorem Needs.onlyOn {g : Valuation → Bool} (needs : Needs limits d k important g)
    (only : ∀ x ∈ important, OnlyOn xs (d.eval · x.2.ref)) : OnlyOn xs g := by
  rcases needs.among with ⟨b, same⟩ | ⟨m, mem, of⟩
  · exact fun v w _ => (same v).trans (same w).symm
  · exact (onlyOn_functions only m mem).cofactor of

/-- Only large formulas or large diagrams need too many nodes. -/
theorem Exhausts.short {p : Prover} {v : Violation} (exhausts : p.Exhausts limits d important v)
    (only : ∀ x ∈ important, OnlyOn xs (d.eval · x.2.ref)) : d.Short (p.room xs.card) v := by
  obtain ⟨k, made, exhausts⟩ := exhausts
  obtain ⟨same, full⟩ := exhausts.short (fun _ needs => needs.among) (onlyOn_functions only)
  have count := length_functions_le made limits d important
  have enough := Nat.mul_le_mul_right (3 ^ xs.card) count
  rw [Nat.mul_assoc] at enough
  exact ⟨same, Nat.le_trans full (Nat.add_le_add_right (Nat.add_le_add_left enough _) 2)⟩

end Prover

end ProgramAnalysis
