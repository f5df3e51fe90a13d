import ProgramAnalysis.Analysis.Peers
import ProgramAnalysis.Proofs.Analysis.Composite

/-! From the states of one analysis to parts of composite states: an analysis that loses nothing on its
own states loses nothing as a component. -/
namespace ProgramAnalysis

open Ambient (keeps_pure)

/-- States and parts of their kind are the same thing. -/
class LawfulPartKind (ε : Type) [PartKind ε] [BEq ε] : Prop where
  ofPart?_toPart : ∀ e : ε, PartKind.ofPart? (PartKind.toPart e) = some e
  toPart_beq : ∀ e f : ε, (PartKind.toPart e == PartKind.toPart f) = (e == f)

instance : LawfulPartKind LocationState := ⟨fun _ => rfl, fun _ _ => rfl⟩

instance : LawfulPartKind SignState := ⟨fun _ => rfl, fun _ _ => rfl⟩

instance : LawfulPartKind ExplicitState := ⟨fun _ => rfl, fun _ _ => rfl⟩

instance : LawfulPartKind PredicateState := ⟨fun _ => rfl, fun _ _ => rfl⟩

namespace Analysis

variable {σ ε π : Type} [PartKind ε] [BEq ε] [LawfulPartKind ε] {a : Analysis σ ε π}
  {A : Ambient σ} {contains : Part → Config → Prop} {D : Dialect} {program : Automaton} {π₀ : π}
  {good : σ → ε → Prop}

theorem stateOf_toPart (e : ε) :
    (stateOf (PartKind.toPart e) : AnalysisM σ ε) = pure e := by
  unfold stateOf
  rw [LawfulPartKind.ofPart?_toPart]

theorem keeps_ofExcept {α : Type} {r : Except Failure α} {s : σ} {result : α → σ → Prop}
    (valid : A.valid s) (ok : ∀ x, r = .ok x → result x s) : A.Keeps (ofExcept r) s result := by
  cases r with
  | ok x => exact keeps_pure valid (ok x rfl)
  | error f => exact Ambient.keeps_throw

def PartOf (good : σ → ε → Prop) (s : σ) (p : Part) : Prop :=
  ∃ e, p = PartKind.toPart e ∧ good s e

theorem SoundSeen.onParts
    (sound : a.SoundSeen PartKind.toPart A contains D program π₀ good) :
    a.onParts.SoundSeen id A contains D program π₀ (PartOf good) where
  good_mono := by
    rintro s t - ⟨e, rfl, here⟩ grown
    exact ⟨e, rfl, sound.good_mono here grown⟩
  same := by
    rintro s - - c ⟨e, rfl, hereE⟩ ⟨f, rfl, hereF⟩ equal
    rw [LawfulPartKind.toPart_beq] at equal
    exact sound.same hereE hereF equal
  initial valid :=
    ((sound.initial valid).mono fun e _ _ _ ⟨here, starts⟩ => ⟨⟨e, rfl, here⟩, starts⟩).map
  successors := by
    rintro s - edge valid ⟨e, rfl, here⟩ mem
    simp only [Analysis.onParts, stateOf_toPart, pure_bind]
    refine (sound.successors valid here mem).bind fun next t valid _ ⟨goodNext, reaches⟩ =>
      keeps_pure valid ⟨?_, fun c c' contained follows => ?_⟩
    · intro q mem
      obtain ⟨f, inside, rfl⟩ := List.mem_map.mp mem
      exact ⟨f, rfl, goodNext f inside⟩
    · obtain ⟨f, mem, holds⟩ := reaches c c' contained follows
      exact ⟨_, List.mem_map_of_mem mem, holds⟩
  strengthen := by
    rintro s - siblings edge valid ⟨e, rfl, here⟩
    simp only [Analysis.onParts, stateOf_toPart, pure_bind]
    refine (sound.strengthen valid here).bind fun r t valid _ told => keeps_pure valid ?_
    cases r with
    | unchanged => trivial
    | replaced f => exact ⟨⟨f, rfl, told.1⟩, told.2⟩
    | infeasible => exact told
  merge := by
    rintro s - - valid ⟨e, rfl, hereE⟩ ⟨f, rfl, hereF⟩
    simp only [Analysis.onParts, stateOf_toPart, pure_bind]
    refine (sound.merge valid hereE hereF).bind fun m t valid grown ⟨goodM, larger⟩ =>
      keeps_pure valid ?_
    split
    · exact ⟨⟨f, rfl, sound.good_mono hereF grown⟩, fun _ h => h⟩
    · exact ⟨⟨m, rfl, goodM⟩, larger⟩
  isBottom := by
    rintro s - valid ⟨e, rfl, here⟩
    simp only [Analysis.onParts, stateOf_toPart, pure_bind]
    exact sound.isBottom valid here
  covers := by
    rintro s - - valid ⟨e, rfl, hereE⟩ ⟨f, rfl, hereF⟩
    simp only [Analysis.onParts, stateOf_toPart, pure_bind]
    exact sound.covers valid hereE hereF

def SoundSeen.component (sound : a.SoundSeen PartKind.toPart A contains D program π₀ good) :
    SoundComponent A contains D program π₀ where
  component := a.onParts
  good := PartOf good
  sound := sound.onParts

end Analysis

/-! ### Locations -/

variable {σ π : Type} {A : Ambient σ} {D : Dialect} {program : Automaton} {π₀ : π}

/-- What parts mean, where `abstracts` is what predicate states mean. -/
def Part.Contains (abstracts : PredicateState → Config → Prop) : Part → Config → Prop
  | .location l, c => l = .point c.point
  | .sign s, c => ∀ x, (s.get x).containsInt (c.store x) = true
  | .explicit e, c => e.isBottom = false ∧ ∀ x v, e.value? x = some v → c.store x = v
  | .predicate s, c => abstracts s c

theorem Analysis.locations_sound (abstracts : PredicateState → Config → Prop) :
    (locations : Analysis σ LocationState π).SoundSeen PartKind.toPart A
      (Part.Contains abstracts) D program π₀ fun _ l => ∃ x, l = .point x where
  good_mono here _ := here
  same _ _ equal holds := (eq_of_beq equal).symm.trans holds
  initial valid := keeps_pure valid ⟨⟨_, rfl⟩, fun c begins => congrArg _ begins.point.symm⟩
  successors := by
    rintro s - edge valid ⟨x, rfl⟩ mem
    refine keeps_pure valid ⟨fun l inside => ?_, fun c c' holds follows => ?_⟩
    · simp only [LocationState.successors] at inside
      split at inside
      · exact ⟨_, List.mem_singleton.mp inside⟩
      · cases inside
    · cases holds
      simp only [LocationState.successors, follows.source, if_true]
      exact ⟨_, List.mem_singleton_self _, congrArg _ follows.target.symm⟩
  strengthen valid _ := keeps_pure valid trivial
  merge valid _ here := keeps_pure valid ⟨here, fun _ h => h⟩
  isBottom := by
    rintro s - valid ⟨x, rfl⟩
    exact keeps_pure valid nofun
  covers := by
    rintro s - - valid ⟨x, rfl⟩ ⟨y, rfl⟩
    refine keeps_pure valid fun le c holds => ?_
    cases holds
    exact (of_decide_eq_true le).symm

theorem Analysis.locates (abstracts : PredicateState → Config → Prop) :
    (locations_sound abstracts : SoundSeen (σ := σ) (π := π) _ _ A _ D program π₀ _).component.Locates where
  point := by
    rintro s - c ⟨l, rfl, x, rfl⟩ holds
    cases holds
    rfl
  same := by
    rintro s - - c ⟨l, rfl, x, rfl⟩ ⟨m, rfl, y, rfl⟩ point holds
    cases holds
    cases point
    rfl

end ProgramAnalysis
