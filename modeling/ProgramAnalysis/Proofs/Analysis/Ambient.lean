import ProgramAnalysis.Analysis.Basic
import ProgramAnalysis.Proofs.Outcome

/-! The state that analyses share, as their operators see it: it is valid and it only grows. Failures and
broken contracts end a run without an answer, so nothing is asked of them. -/
namespace ProgramAnalysis

open Attempt (Ensures)

/-- Which shared states an analysis may be in, and how they grow. -/
structure Ambient (σ : Type) where
  valid : σ → Prop
  grows : σ → σ → Prop
  grows_refl : ∀ s, grows s s
  grows_trans : ∀ {s t u}, grows s t → grows t u → grows s u

namespace Ambient

variable {σ α β : Type} (A : Ambient σ) {s : σ}

def any (σ : Type) : Ambient σ :=
  ⟨fun _ => True, fun _ _ => True, fun _ => trivial, fun _ _ => trivial⟩

/-- A computation keeps the shared state valid, and its result satisfies `result`. -/
def Keeps (act : AnalysisM σ α) (s : σ) (result : α → σ → Prop) : Prop :=
  Ensures act s (fun _ => True) (fun _ _ => True) fun a t => A.valid t ∧ A.grows s t ∧ result a t

variable {A}

theorem keeps_pure {a : α} {result : α → σ → Prop} (valid : A.valid s) (holds : result a s) :
    A.Keeps (pure a) s result := ⟨valid, A.grows_refl s, holds⟩

theorem keeps_throw {f : Failure} {result : α → σ → Prop} :
    A.Keeps (throw f) s result := trivial

theorem keeps_violation {v : Violation} {result : α → σ → Prop} :
    A.Keeps (Attempt.ofOutcome (ExceptT.lift (.error v))) s result := trivial

theorem Keeps.bind {act : AnalysisM σ α} {next : α → AnalysisM σ β} {first : α → σ → Prop}
    {second : β → σ → Prop} (h : A.Keeps act s first)
    (step : ∀ a t, A.valid t → A.grows s t → first a t → A.Keeps (next a) t second) :
    A.Keeps (act >>= next) s second := by
  unfold Keeps
  rw [Attempt.ensures_bind]
  refine h.mono fun a t ⟨valid, grown, holds⟩ => ?_
  exact (step a t valid grown holds).mono fun b u ⟨valid', grown', holds'⟩ =>
    ⟨valid', A.grows_trans grown grown', holds'⟩

theorem Keeps.map {act : AnalysisM σ α} {f : α → β} {result : β → σ → Prop}
    (h : A.Keeps act s fun a t => result (f a) t) : A.Keeps (f <$> act) s result := by
  unfold Keeps
  rw [Attempt.ensures_map]
  exact h

theorem Keeps.mono {act : AnalysisM σ α} {first second : α → σ → Prop} (h : A.Keeps act s first)
    (step : ∀ a t, A.valid t → A.grows s t → first a t → second a t) : A.Keeps act s second :=
  Ensures.mono h fun a t ⟨valid, grown, holds⟩ => ⟨valid, grown, step a t valid grown holds⟩

theorem keeps_anyOf {test : α → AnalysisM σ Bool} {xs : List α} (accepted : α → Prop)
    (valid : A.valid s) (each : ∀ x ∈ xs, ∀ t, A.valid t → A.grows s t →
      A.Keeps (test x) t fun b _ => b = true → accepted x) :
    A.Keeps (anyOf test xs) s fun b _ => b = true → ∃ x ∈ xs, accepted x := by
  induction xs generalizing s with
  | nil => exact keeps_pure valid nofun
  | cons x xs ih =>
    obtain ⟨here, rest⟩ := List.forall_mem_cons.mp each
    rw [anyOf]
    refine (here s valid (A.grows_refl s)).bind fun b t valid grown holds => ?_
    split
    · rename_i yes
      exact keeps_pure valid fun _ => ⟨x, List.mem_cons_self, holds yes⟩
    · refine (ih valid fun y mem u validU more =>
        rest y mem u validU (A.grows_trans grown more)).mono fun b _ _ _ found yes => ?_
      obtain ⟨y, mem, holds⟩ := found yes
      exact ⟨y, List.mem_cons_of_mem _ mem, holds⟩

theorem keeps_filterMapM {f : α → AnalysisM σ (Option β)} {xs : List α}
    (tells : α → Option β → σ → Prop)
    (lasts : ∀ {x r t u}, tells x r t → A.grows t u → tells x r u) (valid : A.valid s)
    (each : ∀ x ∈ xs, ∀ t, A.valid t → A.grows s t → A.Keeps (f x) t fun r u => tells x r u) :
    A.Keeps (xs.filterMapM f) s fun ys u => (∀ y ∈ ys, ∃ x ∈ xs, tells x (some y) u) ∧
      ∀ x ∈ xs, tells x none u ∨ ∃ y ∈ ys, tells x (some y) u := by
  -- What was told of an element has to last while the others are looked at.
  induction xs generalizing s with
  | nil => exact keeps_pure valid ⟨by simp, by simp⟩
  | cons x xs ih =>
    obtain ⟨here, rest⟩ := List.forall_mem_cons.mp each
    rw [List.filterMapM_cons]
    refine (here s valid (A.grows_refl s)).bind fun r t valid grown told => ?_
    have others := ih valid fun y mem u validU more => rest y mem u validU (A.grows_trans grown more)
    cases r with
    | none =>
      refine others.mono fun ys u _ more ⟨origin, found⟩ => ⟨fun y mem => ?_, ?_⟩
      · obtain ⟨x', mem', told'⟩ := origin y mem
        exact ⟨x', List.mem_cons_of_mem _ mem', told'⟩
      · exact List.forall_mem_cons.mpr ⟨.inl (lasts told more), found⟩
    | some y =>
      refine others.bind fun ys u valid more ⟨origin, found⟩ => keeps_pure valid ⟨?_, ?_⟩
      · refine List.forall_mem_cons.mpr ⟨⟨x, List.mem_cons_self, lasts told more⟩, fun z mem => ?_⟩
        obtain ⟨x', mem', told'⟩ := origin z mem
        exact ⟨x', List.mem_cons_of_mem _ mem', told'⟩
      · refine List.forall_mem_cons.mpr
          ⟨.inr ⟨y, List.mem_cons_self, lasts told more⟩, fun x' mem => ?_⟩
        refine (found x' mem).imp_right ?_
        rintro ⟨z, mem', told'⟩
        exact ⟨z, List.mem_cons_of_mem _ mem', told'⟩

end Ambient

end ProgramAnalysis
