import ProgramAnalysis.Proofs.Analysis.Parts
import ProgramAnalysis.Proofs.Table.NameMap

/-! Lattices of the states of analyses. A test or a join may use and change what analyses share, so the order
is one on the states that belong to a shared state, it does not change while the shared state grows, and
tests only decide it. Neither tests nor joins fail; which violations may end them is a parameter. -/
namespace ProgramAnalysis

open Attempt (Ensures)

namespace Ambient

variable {σ α β : Type} {A : Ambient σ} {bad : Violation → Prop} {s : σ}

/-- A computation that does not fail keeps the shared state valid, and its result satisfies `result`. -/
def Returns (A : Ambient σ) (bad : Violation → Prop) (act : AnalysisM σ α) (s : σ)
    (result : α → σ → Prop) : Prop :=
  Ensures act s bad (fun _ _ => False) fun a t => A.valid t ∧ A.grows s t ∧ result a t

theorem returns_pure {a : α} {result : α → σ → Prop} (valid : A.valid s) (holds : result a s) :
    A.Returns bad (pure a) s result := ⟨valid, A.grows_refl s, holds⟩

theorem Returns.bind {act : AnalysisM σ α} {next : α → AnalysisM σ β} {first : α → σ → Prop}
    {second : β → σ → Prop} (h : A.Returns bad act s first)
    (step : ∀ a t, A.valid t → A.grows s t → first a t → A.Returns bad (next a) t second) :
    A.Returns bad (act >>= next) s second := by
  unfold Returns
  rw [Attempt.ensures_bind]
  refine Ensures.mono h fun a t ⟨valid, grown, holds⟩ => ?_
  exact Ensures.mono (step a t valid grown holds) fun b u ⟨valid', grown', holds'⟩ =>
    ⟨valid', A.grows_trans grown grown', holds'⟩

theorem Returns.mono {act : AnalysisM σ α} {first second : α → σ → Prop} (h : A.Returns bad act s first)
    (step : ∀ a t, A.valid t → A.grows s t → first a t → second a t) : A.Returns bad act s second :=
  Ensures.mono h fun a t ⟨valid, grown, holds⟩ => ⟨valid, grown, step a t valid grown holds⟩

/-- A test of something that does not change while the shared state grows. -/
def Decides (A : Ambient σ) (bad : Violation → Prop) (test : AnalysisM σ Bool) (s : σ) (p : Prop) :
    Prop := ∀ t, A.valid t → A.grows s t → A.Returns bad test t fun b _ => b = true ↔ p

namespace Decides

variable {test test' test'' : AnalysisM σ Bool} {p q r : Prop} {t : σ}

theorem later (decides : A.Decides bad test s p) (grown : A.grows s t) : A.Decides bad test t p :=
  fun u valid more => decides u valid (A.grows_trans grown more)

theorem accepts (decides : A.Decides bad test s p) (valid : A.valid s) (holds : p) :
    A.Returns bad test s fun b _ => b = true :=
  (decides s valid (A.grows_refl s)).mono fun _ _ _ _ iff => iff.mpr holds

theorem bind {next : Bool → AnalysisM σ α} {result : α → σ → Prop}
    (decides : A.Decides bad test s p) (valid : A.valid s)
    (step : ∀ b t, A.valid t → A.grows s t → (b = true ↔ p) → A.Returns bad (next b) t result) :
    A.Returns bad (test >>= next) s result := (decides s valid (A.grows_refl s)).bind step

theorem both (first : A.Decides bad test s p) (second : A.Decides bad test' s q) (valid : A.valid s) :
    A.Returns bad (do return (← test, ← test')) s
      fun (b, b') _ => (b = true ↔ p) ∧ (b' = true ↔ q) := by
  refine first.bind valid fun b t validT grown iff => ?_
  refine (second.later grown).bind validT fun b' u validU _ iff' => ?_
  exact returns_pure validU ⟨iff, iff'⟩

theorem three (first : A.Decides bad test s p) (second : A.Decides bad test' s q)
    (third : A.Decides bad test'' s r) (valid : A.valid s) :
    A.Returns bad (do return (← test, ← test', ← test'')) s
      fun (b, b', b'') _ => (b = true ↔ p) ∧ (b' = true ↔ q) ∧ (b'' = true ↔ r) := by
  refine first.bind valid fun b t validT grown iff => ?_
  refine (second.later grown).bind validT fun b' u validU more iff' => ?_
  refine (third.later (A.grows_trans grown more)).bind validU fun b'' v validV _ iff'' => ?_
  exact returns_pure validV ⟨iff, iff', iff''⟩

theorem chain (first : A.Decides bad test s p) (second : A.Decides bad test' s q)
    (third : A.Decides bad test'' s r) (valid : A.valid s) (trans : p → q → r) :
    A.Returns bad (do return (← test, ← test', ← test'')) s
      fun (b, b', b'') _ => b = true → b' = true → b'' = true :=
  (first.three second third valid).mono fun _ _ _ _ ⟨iff, iff', iff''⟩ yes yes' =>
    iff''.mpr (trans (iff.mp yes) (iff'.mp yes'))

end Decides

end Ambient

namespace Analysis

variable {σ ε π : Type}

/-- `le` decides the order `below` on the states `own`, bottom is the least of them, and joins are upper
bounds. -/
structure Lattice (a : Analysis σ ε π) (A : Ambient σ) (bad : Violation → Prop) (own : σ → ε → Prop)
    (below : σ → ε → ε → Prop) : Prop where
  own_mono : ∀ {s t e}, own s e → A.grows s t → own t e
  below_iff : ∀ {s t e f}, own s e → own s f → A.grows s t → (below t e f ↔ below s e f)
  le : ∀ {s e f}, A.valid s → own s e → own s f →
    A.Returns bad (a.le e f) s fun b _ => b = true ↔ below s e f
  refl : ∀ {s e}, own s e → below s e e
  trans : ∀ {s e f g}, own s e → own s f → own s g → below s e f → below s f g → below s e g
  bottom : ∀ {s}, A.valid s → own s a.bottom
  bottom_below : ∀ {s e}, own s e → below s a.bottom e
  join : ∀ {s e f}, A.valid s → own s e → own s f →
    A.Returns bad (a.join e f) s fun j t => own t j ∧ below t e j ∧ below t f j

theorem lattice_of_pure {a : Analysis σ ε π} {A : Ambient σ} {bad : Violation → Prop}
    {le : ε → ε → Bool} {join : ε → ε → ε} (tests : ∀ e f, a.le e f = pure (le e f))
    (joins : ∀ e f, a.join e f = pure (join e f)) (refl : ∀ e, le e e = true)
    (trans : ∀ e f g, le e f = true → le f g = true → le e g = true)
    (bottom : ∀ e, le a.bottom e = true) (left : ∀ e f, le e (join e f) = true)
    (right : ∀ e f, le f (join e f) = true) :
    a.Lattice A bad (fun _ _ => True) fun _ e f => le e f = true where
  own_mono _ _ := trivial
  below_iff _ _ _ := Iff.rfl
  le valid _ _ := by
    rw [tests]
    exact Ambient.returns_pure valid Iff.rfl
  refl _ := refl _
  trans _ _ _ := trans _ _ _
  bottom _ := trivial
  bottom_below _ := bottom _
  join valid _ _ := by
    rw [joins]
    exact Ambient.returns_pure valid ⟨trivial, left _ _, right _ _⟩

variable {a : Analysis σ ε π} {A : Ambient σ} {bad : Violation → Prop} {own : σ → ε → Prop}
  {below : σ → ε → ε → Prop}

def BelowAsParts [PartKind ε] (below : σ → ε → ε → Prop) (s : σ) (p q : Part) : Prop :=
  ∃ e f, p = PartKind.toPart e ∧ q = PartKind.toPart f ∧ below s e f

section Parts

variable [PartKind ε] [BEq ε] [LawfulPartKind ε]

theorem toPart_injective {e f : ε}
    (same : (PartKind.toPart e : Part) = PartKind.toPart f) : e = f := by
  have back := congrArg (PartKind.ofPart? (ε := ε)) same
  rw [LawfulPartKind.ofPart?_toPart, LawfulPartKind.ofPart?_toPart] at back
  exact Option.some.inj back

theorem belowAsParts_iff {s : σ} {e f : ε} :
    BelowAsParts below s (PartKind.toPart e) (PartKind.toPart f) ↔ below s e f := by
  constructor
  · rintro ⟨e', f', sameE, sameF, holds⟩
    rw [toPart_injective sameE, toPart_injective sameF]
    exact holds
  · exact fun holds => ⟨e, f, rfl, rfl, holds⟩

theorem Lattice.onParts (lattice : a.Lattice A bad own below) :
    a.onParts.Lattice A bad (PartOf own) (BelowAsParts below) where
  own_mono := by
    rintro s t - ⟨e, rfl, here⟩ grown
    exact ⟨e, rfl, lattice.own_mono here grown⟩
  below_iff := by
    rintro s t - - ⟨e, rfl, hereE⟩ ⟨f, rfl, hereF⟩ grown
    rw [belowAsParts_iff, belowAsParts_iff, lattice.below_iff hereE hereF grown]
  le := by
    rintro s - - valid ⟨e, rfl, hereE⟩ ⟨f, rfl, hereF⟩
    simp only [Analysis.onParts, stateOf_toPart, pure_bind, belowAsParts_iff]
    exact lattice.le valid hereE hereF
  refl := by
    rintro s - ⟨e, rfl, here⟩
    exact belowAsParts_iff.mpr (lattice.refl here)
  trans := by
    rintro s - - - ⟨e, rfl, hereE⟩ ⟨f, rfl, hereF⟩ ⟨g, rfl, hereG⟩ first second
    rw [belowAsParts_iff] at first second ⊢
    exact lattice.trans hereE hereF hereG first second
  bottom valid := ⟨a.bottom, rfl, lattice.bottom valid⟩
  bottom_below := by
    rintro s - ⟨e, rfl, here⟩
    exact belowAsParts_iff.mpr (lattice.bottom_below here)
  join := by
    rintro s - - valid ⟨e, rfl, hereE⟩ ⟨f, rfl, hereF⟩
    simp only [Analysis.onParts, stateOf_toPart, pure_bind]
    refine (lattice.join valid hereE hereF).bind fun j t valid' _ joins => ?_
    obtain ⟨here, left, right⟩ := joins
    refine Ambient.returns_pure valid' ⟨⟨j, rfl, here⟩, ?_, ?_⟩
    · exact belowAsParts_iff.mpr left
    · exact belowAsParts_iff.mpr right

end Parts

end Analysis

/-! ### Locations and known values -/

namespace LocationState

theorem le_refl (l : LocationState) : l.le l = true := by cases l <;> simp [le]

theorem le_trans {l m n : LocationState} (first : l.le m = true) (second : m.le n = true) :
    l.le n = true := by
  cases l <;> cases m <;> cases n <;> simp_all [le]

theorem le_join (l m : LocationState) : l.le (l.join m) = true ∧ m.le (l.join m) = true := by
  cases l with
  | bottom => exact ⟨rfl, le_refl m⟩
  | point p =>
    cases m with
    | bottom => exact ⟨le_refl _, rfl⟩
    | point q =>
      simp only [join]
      split
      · rename_i same
        exact ⟨le_refl _, same ▸ le_refl _⟩
      · exact ⟨rfl, rfl⟩
    | top => exact ⟨rfl, rfl⟩
  | top => cases m <;> exact ⟨rfl, rfl⟩

end LocationState

namespace ExplicitState

variable {e f g : ExplicitState}

theorem le_known_iff {m n : NameMap Int} : (known m).le (known n) = true ↔
    ∀ x v, n.get? x = some v → m.get? x = some v := by
  rw [le, List.all_eq_true]
  constructor
  · intro all x v found
    exact of_decide_eq_true (all (x, v) (NameMap.mem_of_get? found))
  · rintro knows ⟨x, v⟩ mem
    exact decide_eq_true (knows x v (NameMap.get?_of_mem mem))

theorem le_refl (e : ExplicitState) : e.le e = true := by
  cases e with
  | bottom => rfl
  | known m => exact le_known_iff.mpr fun _ _ found => found

theorem le_trans (first : e.le f = true) (second : f.le g = true) : e.le g = true := by
  cases e with
  | bottom => rfl
  | known m =>
    cases f with
    | bottom => cases first
    | known n =>
      cases g with
      | bottom => cases second
      | known k =>
        rw [le_known_iff] at first second ⊢
        exact fun x v found => first x v (second x v found)

theorem le_join (e f : ExplicitState) : e.le (e.join f) = true ∧ f.le (e.join f) = true := by
  cases e with
  | bottom => exact ⟨rfl, le_refl f⟩
  | known m =>
    cases f with
    | bottom => exact ⟨le_refl _, rfl⟩
    | known n =>
      have both (x : String) (v : Int) (found : (m.filter fun x v => n.get? x = some v).get? x = some v) :
          (x, v) ∈ m.entries ∧ n.get? x = some v := by
        obtain ⟨mem, other⟩ := List.mem_filter.mp (NameMap.mem_of_get? found)
        exact ⟨mem, of_decide_eq_true other⟩
      constructor
      · exact le_known_iff.mpr fun x v found => NameMap.get?_of_mem (both x v found).1
      · exact le_known_iff.mpr fun x v found => (both x v found).2

end ExplicitState

namespace Analysis

variable {σ π : Type} {A : Ambient σ} {bad : Violation → Prop}

theorem locations_lattice : (locations : Analysis σ LocationState π).Lattice A bad (fun _ _ => True)
    fun _ l m => l.le m = true :=
  lattice_of_pure (fun _ _ => rfl) (fun _ _ => rfl) LocationState.le_refl
    (fun _ _ _ => LocationState.le_trans) (fun _ => rfl) (fun l m => (l.le_join m).1)
    fun l m => (l.le_join m).2

theorem values_lattice : (values : Analysis σ ExplicitState π).Lattice A bad (fun _ _ => True)
    fun _ e f => e.le f = true :=
  lattice_of_pure (fun _ _ => rfl) (fun _ _ => rfl) ExplicitState.le_refl
    (fun _ _ _ => ExplicitState.le_trans) (fun _ => rfl) (fun e f => (e.le_join f).1)
    fun e f => (e.le_join f).2

end Analysis

end ProgramAnalysis
