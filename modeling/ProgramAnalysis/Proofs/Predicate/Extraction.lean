import Mathlib.Tactic.Choose
import ProgramAnalysis.Proofs.Predicate.Registry

/-! The predicates of a region. A search splits every region below it once and meets exactly the variables
that the region tests, which are the ones that it depends on. Each stands for one predicate, so the
predicates are found in the order of their numbers and none twice. -/
namespace ProgramAnalysis

namespace Region

variable {d : Diagram} {r : Region}
variable {pending : List Region} {seen : Std.HashSet Region} {met : Nat → Prop} {n : Node} {x : Nat}

theorem tests_of_mem_variablesFrom (mem : x ∈ variablesFrom d pending seen) :
    ∃ r ∈ pending, d.Tests r.ref x := by
  fun_induction variablesFrom d pending seen with
  | case1 => cases mem
  | case2 seen r rest known ih =>
    obtain ⟨s, inside, tests⟩ := ih mem
    exact ⟨s, List.mem_cons_of_mem r inside, tests⟩
  | case3 seen r rest fresh terminal ih =>
    obtain ⟨s, inside, tests⟩ := ih mem
    exact ⟨s, List.mem_cons_of_mem r inside, tests⟩
  | case4 seen r rest fresh n inner ih =>
    cases mem with
    | head => exact ⟨r, List.mem_cons_self, .root inner⟩
    | tail _ mem =>
      obtain ⟨s, inside, tests⟩ := ih mem
      rcases List.mem_cons.mp inside with rfl | inside
      · exact ⟨r, List.mem_cons_self, .low inner tests⟩
      rcases List.mem_cons.mp inside with rfl | inside
      · exact ⟨r, List.mem_cons_self, .high inner tests⟩
      · exact ⟨s, List.mem_cons_of_mem r inside, tests⟩

/-- The search has looked at the region or still has to. -/
def Reached (pending : List Region) (seen : Std.HashSet Region) (r : Region) : Prop :=
  r ∈ seen ∨ r ∈ pending

/-- Of the regions that were seen, the variables were met and the parts are reached. -/
structure Frontier (d : Diagram) (pending : List Region) (seen : Std.HashSet Region)
    (met : Nat → Prop) : Prop where
  var : ∀ r ∈ seen, ∀ n, d.node? r.ref = some n → met n.var
  parts : ∀ r ∈ seen, ∀ n, d.node? r.ref = some n →
    Reached pending seen ⟨d.low r.ref⟩ ∧ Reached pending seen ⟨d.high r.ref⟩

theorem Reached.insert {s : Region} (reached : Reached (r :: pending) seen s) :
    Reached pending (seen.insert r) s := by
  rcases reached with known | waiting
  · exact .inl (Std.HashSet.mem_insert.mpr (.inr known))
  · rcases List.mem_cons.mp waiting with rfl | later
    · exact .inl Std.HashSet.mem_insert_self
    · exact .inr later

theorem Reached.drop {s : Region} (reached : Reached (r :: pending) seen s) (known : r ∈ seen) :
    Reached pending seen s := by
  rcases reached with before | waiting
  · exact .inl before
  · rcases List.mem_cons.mp waiting with rfl | later
    · exact .inl known
    · exact .inr later

theorem Reached.more {s : Region} (others : List Region) (reached : Reached pending seen s) :
    Reached (others ++ pending) seen s :=
  reached.imp_right (List.mem_append_right others)

namespace Frontier

theorem drop (frontier : Frontier d (r :: pending) seen met) (known : r ∈ seen) :
    Frontier d pending seen met := by
  refine ⟨frontier.var, fun s mem n inner => ?_⟩
  obtain ⟨low, high⟩ := frontier.parts s mem n inner
  exact ⟨low.drop known, high.drop known⟩

theorem insert_terminal (frontier : Frontier d (r :: pending) seen met)
    (terminal : d.node? r.ref = none) : Frontier d pending (seen.insert r) met := by
  have before (s : Region) (mem : s ∈ seen.insert r) (n : Node) (inner : d.node? s.ref = some n) :
      s ∈ seen := by
    rcases Std.HashSet.mem_insert.mp mem with here | known
    · rw [← eq_of_beq here, terminal] at inner
      cases inner
    · exact known
  constructor
  · intro s mem n inner
    exact frontier.var s (before s mem n inner) n inner
  · intro s mem n inner
    obtain ⟨low, high⟩ := frontier.parts s (before s mem n inner) n inner
    exact ⟨low.insert, high.insert⟩

theorem insert_inner (frontier : Frontier d (r :: pending) seen met)
    (inner : d.node? r.ref = some n) :
    Frontier d (⟨d.low r.ref⟩ :: ⟨d.high r.ref⟩ :: pending) (seen.insert r)
      (fun x => x = n.var ∨ met x) := by
  constructor
  · intro s mem m there
    rcases Std.HashSet.mem_insert.mp mem with here | known
    · obtain rfl : r = s := eq_of_beq here
      cases inner.symm.trans there
      exact .inl rfl
    · exact .inr (frontier.var s known m there)
  · intro s mem m there
    rcases Std.HashSet.mem_insert.mp mem with here | known
    · obtain rfl : r = s := eq_of_beq here
      exact ⟨.inr List.mem_cons_self, .inr (List.mem_cons_of_mem _ List.mem_cons_self)⟩
    · obtain ⟨low, high⟩ := frontier.parts s known m there
      exact ⟨low.insert.more [_, _], high.insert.more [_, _]⟩

/-- When nothing is pending, all that is below what was seen was seen too. -/
theorem met_of_tests {r : Ref} (frontier : Frontier d [] seen met) (mem : ⟨r⟩ ∈ seen)
    (tests : d.Tests r x) : met x := by
  have seen_of_reached {s : Region} (reached : Reached [] seen s) : s ∈ seen :=
    reached.resolve_right List.not_mem_nil
  induction tests with
  | root inner => exact frontier.var _ mem _ inner
  | low inner below ih => exact ih (seen_of_reached (frontier.parts _ mem _ inner).1)
  | high inner below ih => exact ih (seen_of_reached (frontier.parts _ mem _ inner).2)

theorem met_or_mem (frontier : Frontier d pending seen met) (reached : Reached pending seen r)
    (tests : d.Tests r.ref x) : met x ∨ x ∈ variablesFrom d pending seen := by
  fun_induction variablesFrom d pending seen generalizing met with
  | case1 seen =>
    exact .inl (frontier.met_of_tests (reached.resolve_right List.not_mem_nil) tests)
  | case2 seen s rest known ih =>
    have mem := Std.HashSet.mem_iff_contains.mpr known
    exact ih (frontier.drop mem) (reached.drop mem)
  | case3 seen s rest fresh terminal ih =>
    exact ih (frontier.insert_terminal terminal) reached.insert
  | case4 seen s rest fresh n inner ih =>
    rcases ih (frontier.insert_inner inner) (reached.insert.more [_, _]) with
      (rfl | before) | later
    · exact .inr List.mem_cons_self
    · exact .inl before
    · exact .inr (List.mem_cons_of_mem _ later)

end Frontier

theorem mem_variablesFrom : x ∈ variablesFrom d [r] ∅ ↔ d.Tests r.ref x := by
  constructor
  · intro mem
    obtain ⟨s, inside, tests⟩ := tests_of_mem_variablesFrom mem
    exact List.mem_singleton.mp inside ▸ tests
  · intro tests
    have start : Frontier d [r] ∅ fun _ => False := by
      constructor <;> exact fun s mem => absurd mem Std.HashSet.not_mem_empty
    exact (start.met_or_mem (.inr List.mem_cons_self) tests).resolve_left id

end Region

namespace Predicate

theorem inOrder_increasing {ps : List Predicate} (once : ps.Nodup)
    (apart : ∀ p ∈ ps, ∀ q ∈ ps, p.id = q.id → p = q) :
    (inOrder ps).Pairwise fun p q => p.id < q.id := by
  have sorted : (inOrder ps).Pairwise fun p q => decide (p.id ≤ q.id) = true := by
    apply List.pairwise_mergeSort
    · intro p q s first second
      simp only [decide_eq_true_eq] at first second ⊢
      exact Nat.le_trans first second
    · intro p q
      simpa using Nat.le_total p.id q.id
  have nodup : (inOrder ps).Nodup := List.nodup_mergeSort.mpr once
  apply (sorted.and nodup).imp_of_mem
  rintro p q memP memQ ⟨le, ne⟩
  have other : p.id ≠ q.id := fun same =>
    ne (apart p (List.mem_mergeSort.mp memP) q (List.mem_mergeSort.mp memQ) same)
  exact Nat.lt_of_le_of_ne (of_decide_eq_true le) other

end Predicate

namespace Registry

variable {reg : Registry} {p : Predicate}

theorem Valid.ofMarker?_marker (valid : reg.Valid) (mem : p ∈ reg.predicates) :
    reg.ofMarker? p.marker = some p := by
  unfold ofMarker?
  cases found : reg.predicates.find? (·.marker = p.marker) with
  | none =>
    have absent := List.find?_eq_none.mp found p mem
    simp at absent
  | some q =>
    have marker : q.marker = p.marker := by simpa using List.find?_some found
    rw [valid.separate q (List.mem_of_find?_eq_some found) p mem (by rw [marker])]

theorem run_regions {α : Type} {act : DiagramM α} {a : α} {d : Diagram}
    (run : act.run reg.diagram = .ok (a, d)) :
    (regions act).run reg = .ok (a, ⟨d, reg.predicates⟩) := by
  have applied : act reg.diagram = .ok (a, d) := run
  simp only [StateT.run, regions, Checked.zoom, applied]

/-- The node of the variable is there, so nothing is made. -/
theorem Valid.ofVar_marker (valid : reg.Valid) (mem : p ∈ reg.predicates) :
    (ofVar (reg.diagram.var p.marker.ref)).run reg = .ok (p, reg) := by
  have made := (valid.marks p mem).isVariable.mkVar_eq valid.diagram.ordered
  unfold ofVar
  rw [Checked.run_bind_of_ok (run_regions made), Checked.run_bind_of_ok (Checked.run_get reg)]
  rw [valid.ofMarker?_marker mem]
  rfl

theorem Valid.predicatesOf_eq {r : Region} (valid : reg.Valid) (has : reg.diagram.Has r.ref)
    (covered : ∀ x, reg.diagram.DependsOn r.ref x →
      ∃ p ∈ reg.predicates, reg.diagram.var p.marker.ref = x) :
    ∃ ps, (predicatesOf r).run reg = .ok (ps, reg) ∧ ps.Pairwise (fun p q => p.id < q.id) ∧
      ∀ p, p ∈ ps ↔ p ∈ reg.predicates ∧
        reg.diagram.DependsOn r.ref (reg.diagram.var p.marker.ref) := by
  let vars := Region.variablesFrom reg.diagram [r] ∅
  have met (x : Nat) : x ∈ vars ↔ reg.diagram.DependsOn r.ref x :=
    Region.mem_variablesFrom.trans (Diagram.dependsOn_iff_tests valid.diagram.ordered has).symm
  have known (x : Nat) (mem : x ∈ vars) :
      ∃ p : Predicate, p ∈ reg.predicates ∧ reg.diagram.var p.marker.ref = x :=
    covered x ((met x).mp mem)
  have : Nonempty Predicate := ⟨⟨0, .top, .bool true⟩⟩
  choose! owner memOwner varOwner using known
  have runs : (vars.mapM ofVar).run reg = .ok (vars.map owner, reg) := by
    apply Checked.run_mapM_of_ok
    intro x mem
    have found := valid.ofVar_marker (memOwner x mem)
    rwa [varOwner x mem] at found
  have memFound (p : Predicate) : p ∈ (vars.map owner).eraseDups ↔ p ∈ reg.predicates ∧
      reg.diagram.DependsOn r.ref (reg.diagram.var p.marker.ref) := by
    rw [List.mem_eraseDups, List.mem_map, ← met]
    constructor
    · rintro ⟨x, mem, rfl⟩
      exact ⟨memOwner x mem, (varOwner x mem).symm ▸ mem⟩
    · rintro ⟨memP, mem⟩
      exact ⟨_, mem, valid.separate _ (memOwner _ mem) p memP (varOwner _ mem)⟩
  refine ⟨Predicate.inOrder (vars.map owner).eraseDups, ?_, ?_, ?_⟩
  · unfold predicatesOf
    rw [Checked.run_bind_of_ok (Checked.run_get reg), Checked.run_bind_of_ok runs]
    rfl
  · apply Predicate.inOrder_increasing (nodup_eraseDups _)
    intro p memP q memQ
    exact valid.eq_of_id ((memFound p).mp memP).1 ((memFound q).mp memQ).1
  · intro p
    rw [Predicate.inOrder, List.mem_mergeSort, memFound]

/-- The support of a function lists, in increasing order, the variables at which its cofactors differ.
For a region over predicate variables the predicates that it depends on are found, each once and in the
order of their numbers, and nothing is changed. -/
theorem supports_exact :
    (∀ (d : Diagram) (f : Ref), d.Ordered → d.Has f →
      (d.support f).Pairwise (· < ·) ∧ ∀ x, x ∈ d.support f ↔ d.DependsOn f x) ∧
    ∀ (reg : Registry) (r : Region), reg.Valid → reg.diagram.Has r.ref →
      (∀ x, reg.diagram.DependsOn r.ref x →
        ∃ p ∈ reg.predicates, reg.diagram.var p.marker.ref = x) →
      ∃ ps, (predicatesOf r).run reg = .ok (ps, reg) ∧ ps.Pairwise (fun p q => p.id < q.id) ∧
        ∀ p, p ∈ ps ↔ p ∈ reg.predicates ∧
          reg.diagram.DependsOn r.ref (reg.diagram.var p.marker.ref) := by
  constructor
  · intro d f ordered has
    exact ⟨d.support_increasing f, fun x => Diagram.mem_support_iff ordered has⟩
  · intro reg r valid has covered
    exact valid.predicatesOf_eq has covered

/-- The complement of a predicate's variable depends on that predicate only. -/
theorem supports_exact_complement : ∃ (reg : Registry) (p : Predicate), reg.Valid ∧
    p ∈ reg.predicates ∧ reg.diagram.Has p.marker.not.ref ∧
    (∀ x, x ∈ reg.diagram.support p.marker.not.ref ↔ x = reg.diagram.var p.marker.ref) ∧
    ∃ ps, (predicatesOf p.marker.not).run reg = .ok (ps, reg) ∧ ∀ q, q ∈ ps ↔ q = p := by
  obtain ⟨d, empty⟩ := exists_empty
  obtain ⟨p, reg, -, adds, single, -⟩ := exists_predicate empty (.bool true)
  have mem : p ∈ reg.predicates := by simp [single]
  have valid := adds.valid
  have ordered := valid.diagram.ordered
  have isVariable := (valid.marks p mem).isVariable
  have has : reg.diagram.Has p.marker.not.ref := Region.has_not isVariable.has
  have depends (x : Nat) : reg.diagram.DependsOn p.marker.not.ref x ↔
      x = reg.diagram.var p.marker.ref :=
    (Diagram.dependsOn_neg ordered isVariable.has).trans (isVariable.dependsOn_iff ordered)
  obtain ⟨-, support⟩ := supports_exact.1 reg.diagram p.marker.not.ref ordered has
  obtain ⟨ps, run, -, found⟩ := supports_exact.2 reg p.marker.not valid has fun x dependsOn =>
    ⟨p, mem, ((depends x).mp dependsOn).symm⟩
  refine ⟨reg, p, valid, mem, has, fun x => (support x).trans (depends x), ps, run, fun q => ?_⟩
  rw [found, depends]
  constructor
  · exact fun ⟨memQ, same⟩ => valid.separate q memQ p mem same
  · rintro rfl
    exact ⟨mem, rfl⟩

end Registry

end ProgramAnalysis
