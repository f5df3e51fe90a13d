import ProgramAnalysis.Proofs.Predicate.Registry
import ProgramAnalysis.Proofs.Solver.AllSat

/-! The region of all models is the projection of the models onto the variables that are seen. A model's
values of these variables are in the region, and without arithmetic the region has no other values:
the path that such values agree with fixes the remaining variables. -/
namespace ProgramAnalysis

open Attempt (Ensures)
open Diagram (OnlyOn)

namespace Prover

/-- Propositional variables that are seen through region variables, each through its own. -/
structure Pairing (d : Diagram) (xs : List (String × Region)) : Prop where
  names : (xs.map Prod.fst).Nodup
  regions : (xs.map Prod.snd).Nodup
  isVariable : ∀ x ∈ xs, x.2.IsVariable d

def important (xs : List (String × Region)) : List (Formula × Region) :=
  xs.map fun x => (.prop x.1, x.2)

/-- The region variables have the values of their propositional variables. -/
def Restricts (d : Diagram) (xs : List (String × Region)) (m : Assignment) (v : Valuation) : Prop :=
  ∀ x ∈ xs, d.eval v x.2.ref = m.truth x.1

variable {d : Diagram} {xs : List (String × Region)} {k : Skeleton} {path : List Int} {v : Valuation}
  {m : Assignment} {ops : Operators} {f : Formula} {p : Prover} {s : Solver × Diagram}

theorem Pairing.eq_of_name (paired : Pairing d xs) {x : String} {r r' : Region}
    (mem : (x, r) ∈ xs) (mem' : (x, r') ∈ xs) : r = r' :=
  congrArg Prod.snd (List.inj_on_of_nodup_map paired.names mem mem' rfl)

theorem Pairing.lookup_eq (paired : Pairing d xs) {x : String} {r : Region} (mem : (x, r) ∈ xs) :
    xs.lookup x = some r := by
  cases found : xs.lookup x with
  | none =>
    have absent := List.lookup_eq_none_iff.mp found _ mem
    simp at absent
  | some r' => rw [paired.eq_of_name mem (NameMap.mem_of_lookup found)]

def withSeen (d : Diagram) (xs : List (String × Region)) (v : Valuation) (m : Assignment) :
    Assignment :=
  { m with truth := fun x => (xs.lookup x).elim (m.truth x) fun r => d.eval v r.ref }

theorem Pairing.restricts_withSeen (paired : Pairing d xs) (v : Valuation) (m : Assignment) :
    Restricts d xs (withSeen d xs v m) v := by
  intro x mem
  simp [withSeen, paired.lookup_eq mem]

/-- The literals of a path still hold when the variables that are seen take values that the path sees. -/
theorem Pairing.holds_withSeen (paired : Pairing d xs) (encodes : k.Encodes f)
    (mem : path ∈ k.diagram.paths k.root) (props : ∀ a ∈ k.atoms, ∃ x, a = .prop x)
    (holds : k.Holds ops m path) (sees : Sees d k (important xs) path v) :
    k.Holds ops (withSeen d xs v m) path := by
  rintro ⟨a, b⟩ literal
  obtain ⟨lit, -, found⟩ := List.mem_filterMap.mp literal
  obtain ⟨a', here, same⟩ := Option.map_eq_some_iff.mp found
  obtain ⟨rfl, -⟩ := Prod.mk.inj same
  obtain ⟨x, rfl⟩ := props a' (Array.mem_of_getElem? here)
  have kept := holds _ literal
  simp only [Formula.holds] at kept
  cases seen : xs.lookup x with
  | none => simpa [Formula.holds, withSeen, seen] using kept
  | some r =>
    have pair : (Formula.prop x, r) ∈ important xs :=
      List.mem_map.mpr ⟨(x, r), NameMap.mem_of_lookup seen, rfl⟩
    have single : ∀ r', (Formula.prop x, r') ∈ important xs → r' = r := by
      intro r' mem'
      obtain ⟨⟨y, r''⟩, inside, equal⟩ := List.mem_map.mp mem'
      cases equal
      exact paired.eq_of_name inside (NameMap.mem_of_lookup seen)
    have visible := mem_visible encodes.faithful.nodup
      (Diagram.natAbs_ne_zero_of_mem_paths encodes.varsBelow mem) pair single literal
    simpa [Formula.holds, withSeen, seen] using sees _ visible

theorem Collected.exists_model {limits : SolverLimits} {answer : AllSat} {t : Solver × Diagram}
    (collected : Collected limits d k (important xs) (k.diagram.paths k.root) answer t)
    (encodes : k.Encodes f) (paired : Pairing d xs) (props : ∀ a ∈ f.leaves, ∃ x, a = .prop x)
    (ops : Operators) (inside : t.2.eval v answer.region.ref = true) :
    ∃ m, f.holds ops m = true ∧ Restricts d xs m v := by
  have propsK : ∀ a ∈ k.atoms, ∃ x, a = .prop x := fun a mem => props a (encodes.leaves a mem)
  obtain ⟨path, mem, -, sees⟩ := (collected.reads.eval v).mp inside
  obtain ⟨m, holds⟩ := encodes.exists_holds propsK ops mem
  have kept := paired.holds_withSeen encodes mem propsK holds sees
  exact ⟨_, encodes.holds_iff_exists_path.mpr ⟨path, mem, kept⟩, paired.restricts_withSeen v m⟩

end Prover

end ProgramAnalysis
