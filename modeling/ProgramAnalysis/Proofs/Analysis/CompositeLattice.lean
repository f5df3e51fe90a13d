import Mathlib.Data.List.Nodup
import ProgramAnalysis.Proofs.Analysis.Lattice

/-! The order of composite states. A state is below another one if the call stacks are the same and every
part is below its counterpart. States with different call stacks are never compared, so a join, which takes
the call stack of its second state, is above the first one only if both have the same. -/
namespace ProgramAnalysis

open Attempt (Ensures)
open Ambient (returns_pure)
open List (Forall₂)

/-- A component whose parts are a lattice. -/
structure LatticeComponent {σ : Type} (A : Ambient σ) (bad : Violation → Prop) (π : Type) where
  component : Component σ π
  own : σ → Part → Prop
  below : σ → Part → Part → Prop
  lattice : component.Lattice A bad own below

namespace Composite

variable {σ π : Type} {A : Ambient σ} {bad : Violation → Prop} {bs : List (LatticeComponent A bad π)}
  {s t : σ} {ps qs rs : List Part}

/-! ### Parts -/

def OwnParts (bs : List (LatticeComponent A bad π)) (s : σ) (ps : List Part) : Prop :=
  Forall₂ (fun b p => b.own s p) bs ps

theorem OwnParts.mono (own : OwnParts bs s ps) (grown : A.grows s t) : OwnParts bs t ps :=
  own.imp fun b _ here => b.lattice.own_mono here grown

inductive PartsBelow (s : σ) : List (LatticeComponent A bad π) → List Part → List Part → Prop
  | nil : PartsBelow s [] [] []
  | cons {b : LatticeComponent A bad π} {bs : List (LatticeComponent A bad π)} {p q : Part}
      {ps qs : List Part} (here : b.below s p q) (rest : PartsBelow s bs ps qs) :
      PartsBelow s (b :: bs) (p :: ps) (q :: qs)

theorem partsBelow_cons {b : LatticeComponent A bad π} {p q : Part} :
    PartsBelow s (b :: bs) (p :: ps) (q :: qs) ↔ b.below s p q ∧ PartsBelow s bs ps qs := by
  constructor
  · rintro ⟨⟩
    exact ⟨‹_›, ‹_›⟩
  · exact fun ⟨here, rest⟩ => .cons here rest

namespace OwnParts

theorem below_iff (ownP : OwnParts bs s ps) (ownQ : OwnParts bs s qs) (grown : A.grows s t) :
    PartsBelow t bs ps qs ↔ PartsBelow s bs ps qs := by
  induction ownP generalizing qs with
  | nil =>
    cases ownQ
    exact ⟨fun _ => .nil, fun _ => .nil⟩
  | @cons b p bs ps here _ ih =>
    cases ownQ with
    | cons here' rest' =>
      rw [partsBelow_cons, partsBelow_cons, ih rest', b.lattice.below_iff here here' grown]

theorem refl (own : OwnParts bs s ps) : PartsBelow s bs ps ps := by
  induction own with
  | nil => exact .nil
  | @cons b p bs ps here _ ih => exact .cons (b.lattice.refl here) ih

theorem trans (ownP : OwnParts bs s ps) (ownQ : OwnParts bs s qs) (ownR : OwnParts bs s rs)
    (first : PartsBelow s bs ps qs) (second : PartsBelow s bs qs rs) : PartsBelow s bs ps rs := by
  induction first generalizing rs with
  | nil => exact second
  | @cons b bs p q ps qs below _ ih =>
    cases second with
    | cons below' rest' =>
      cases ownP with
      | cons hereP restP =>
        cases ownQ with
        | cons hereQ restQ =>
          cases ownR with
          | cons hereR restR =>
            exact .cons (b.lattice.trans hereP hereQ hereR below below')
              (ih restP restQ restR rest')

theorem bottom (valid : A.valid s) : OwnParts bs s ((bs.map (·.component)).map (·.bottom)) := by
  induction bs with
  | nil => exact .nil
  | cons b bs ih => exact .cons (b.lattice.bottom valid) ih

theorem bottom_below (own : OwnParts bs s ps) :
    PartsBelow s bs ((bs.map (·.component)).map (·.bottom)) ps := by
  induction own with
  | nil => exact .nil
  | @cons b p bs ps here _ ih => exact .cons (b.lattice.bottom_below here) ih

end OwnParts

/-! ### Operators -/

/-- The store of composite states: the number of the bottom state is taken, and numbers are not given out
again. -/
def numbered (A : Ambient σ) : Ambient (CompositeStore σ) where
  valid store := A.valid store.shared ∧ CompositeState.bottomNumber < store.next
  grows store store' := A.grows store.shared store'.shared ∧ store.next ≤ store'.next
  grows_refl store := ⟨A.grows_refl store.shared, Nat.le_refl _⟩
  grows_trans first second :=
    ⟨A.grows_trans first.1 second.1, Nat.le_trans first.2 second.2⟩

variable {store : CompositeStore σ}

theorem shared_returns {α : Type} {act : AnalysisM σ α} {result : α → σ → Prop}
    (valid : (numbered A).valid store) (returns : A.Returns bad act store.shared result) :
    (numbered A).Returns bad (CompositeM.shared act) store fun a store' => result a store'.shared := by
  unfold Ambient.Returns CompositeM.shared
  rw [Attempt.ensures_zoom]
  exact Ensures.mono returns fun a t ⟨valid', grown, holds⟩ =>
    ⟨⟨valid', valid.2⟩, ⟨grown, Nat.le_refl _⟩, holds⟩

theorem state_returns (valid : (numbered A).valid store) (ps : List Part) (stack : CallStack) :
    (numbered A).Returns bad (CompositeM.state ps stack) store fun e _ =>
      e.parts = ps ∧ e.stack = stack ∧ store.next ≤ e.number := by
  unfold Ambient.Returns CompositeM.state
  rw [Attempt.ensures_bind, Attempt.ensures_get, Attempt.ensures_bind, Attempt.ensures_modify]
  exact ⟨⟨valid.1, Nat.lt_succ_of_lt valid.2⟩, ⟨A.grows_refl _, Nat.le_succ _⟩, rfl, rfl, Nat.le_refl _⟩

theorem allParts_returns (valid : (numbered A).valid store) (ownP : OwnParts bs store.shared ps)
    (ownQ : OwnParts bs store.shared qs) :
    (numbered A).Returns bad (allParts (·.le) (bs.map (·.component)) ps qs) store fun b _ =>
      b = true ↔ PartsBelow store.shared bs ps qs := by
  induction bs generalizing ps qs store with
  | nil =>
    cases ownP
    cases ownQ
    exact returns_pure valid ⟨fun _ => .nil, fun _ => rfl⟩
  | cons b bs ih =>
    obtain ⟨p, ps, hereP, restP, rfl⟩ := List.forall₂_cons_left_iff.mp ownP
    obtain ⟨q, qs, hereQ, restQ, rfl⟩ := List.forall₂_cons_left_iff.mp ownQ
    rw [List.map_cons, allParts]
    refine (shared_returns valid (b.lattice.le valid.1 hereP hereQ)).bind
      fun answer store' valid' grown decides => ?_
    rw [partsBelow_cons, ← decides]
    split
    · rename_i yes
      refine (ih valid' (OwnParts.mono restP grown.1) (OwnParts.mono restQ grown.1)).mono
        fun answer' _ _ _ decides' => ?_
      rw [decides', OwnParts.below_iff restP restQ grown.1]
      exact (and_iff_right yes).symm
    · rename_i no
      refine returns_pure valid' ⟨fun yes => ?_, fun both => (no both.1).elim⟩
      cases yes

theorem zipParts_returns (valid : (numbered A).valid store) (ownP : OwnParts bs store.shared ps)
    (ownQ : OwnParts bs store.shared qs) :
    (numbered A).Returns bad (zipParts (·.join) (bs.map (·.component)) ps qs) store fun rs store' =>
      OwnParts bs store'.shared rs ∧ PartsBelow store'.shared bs ps rs ∧
        PartsBelow store'.shared bs qs rs := by
  induction bs generalizing ps qs store with
  | nil =>
    cases ownP
    cases ownQ
    exact returns_pure valid ⟨.nil, .nil, .nil⟩
  | cons b bs ih =>
    obtain ⟨p, ps, hereP, restP, rfl⟩ := List.forall₂_cons_left_iff.mp ownP
    obtain ⟨q, qs, hereQ, restQ, rfl⟩ := List.forall₂_cons_left_iff.mp ownQ
    rw [List.map_cons, zipParts]
    refine (shared_returns valid (b.lattice.join valid.1 hereP hereQ)).bind
      fun r store' valid' grown here => ?_
    refine (ih valid' (OwnParts.mono restP grown.1) (OwnParts.mono restQ grown.1)).bind
      fun rs store'' valid'' grown' rest => returns_pure valid'' ?_
    obtain ⟨ownR, left, right⟩ := here
    obtain ⟨ownRs, lefts, rights⟩ := rest
    have later {x : Part} (own : b.own store.shared x) : b.own store'.shared x :=
      b.lattice.own_mono own grown.1
    refine ⟨.cons (b.lattice.own_mono ownR grown'.1) ownRs, .cons ?_ lefts, .cons ?_ rights⟩
    · exact (b.lattice.below_iff (later hereP) ownR grown'.1).mpr left
    · exact (b.lattice.below_iff (later hereQ) ownR grown'.1).mpr right

/-! ### States -/

variable {c : Composite σ π} {e f g : CompositeState}

/-- The same state, or a state with the same call stack and larger parts. -/
def Below (bs : List (LatticeComponent A bad π)) (s : σ) (e f : CompositeState) : Prop :=
  e = f ∨ e.stack = f.stack ∧ PartsBelow s bs e.parts f.parts

namespace Below

theorem trans (ownE : OwnParts bs s e.parts) (ownF : OwnParts bs s f.parts)
    (ownG : OwnParts bs s g.parts) (first : Below bs s e f) (second : Below bs s f g) :
    Below bs s e g := by
  rcases first with rfl | ⟨stack, parts⟩
  · exact second
  rcases second with rfl | ⟨stack', parts'⟩
  · exact .inr ⟨stack, parts⟩
  · exact .inr ⟨stack.trans stack', ownE.trans ownF ownG parts parts'⟩

end Below

theorem le_decides (components : c.components = bs.map (·.component))
    (ownE : OwnParts bs store.shared e.parts) (ownF : OwnParts bs store.shared f.parts)
    (unique : e.number = f.number → e = f) :
    (numbered A).Decides bad (c.le e f) store (Below bs store.shared e f) := by
  intro store' valid grown
  unfold le
  split
  · rename_i same
    exact returns_pure valid ⟨fun _ => .inl (unique same), fun _ => rfl⟩
  rename_i other
  have differ : e ≠ f := fun same => other (congrArg CompositeState.number same)
  split
  · rename_i stack
    exact returns_pure valid ⟨nofun, fun below => (stack (below.resolve_left differ).1).elim⟩
  · rename_i stack
    rw [components]
    refine (allParts_returns valid (ownE.mono grown.1) (ownF.mono grown.1)).mono
      fun b _ _ _ iff => ?_
    rw [iff, ownE.below_iff ownF grown.1]
    exact ⟨fun below => .inr ⟨not_not.mp stack, below⟩, fun below => (below.resolve_left differ).2⟩

theorem join_returns (components : c.components = bs.map (·.component))
    (valid : (numbered A).valid store) (ownE : OwnParts bs store.shared e.parts)
    (ownF : OwnParts bs store.shared f.parts) :
    (numbered A).Returns bad (c.join e f) store fun j store' =>
      j.stack = f.stack ∧ store.next ≤ j.number ∧ OwnParts bs store'.shared j.parts ∧
        PartsBelow store'.shared bs e.parts j.parts ∧ PartsBelow store'.shared bs f.parts j.parts := by
  unfold join
  rw [components]
  refine (zipParts_returns valid ownE ownF).bind fun ps store' valid' grown holds => ?_
  refine (state_returns valid' ps f.stack).mono fun j store'' _ grown' ⟨parts, stack, number⟩ => ?_
  obtain ⟨own, left, right⟩ := holds
  rw [parts]
  refine ⟨stack, Nat.le_trans grown.2 number, own.mono grown'.1, ?_, ?_⟩
  · exact ((ownE.mono grown.1).below_iff own grown'.1).mpr left
  · exact ((ownF.mono grown.1).below_iff own grown'.1).mpr right

/-- What is known of states that were made: each has one part for each component and a number that was
given out, and numbers tell them and the bottom state apart. -/
structure Made (c : Composite σ π) (bs : List (LatticeComponent A bad π)) (store : CompositeStore σ)
    (es : List CompositeState) : Prop where
  own : ∀ e ∈ es, OwnParts bs store.shared e.parts
  number : ∀ e ∈ es, e.number < store.next
  unique : ∀ e ∈ c.bottom :: es, ∀ f ∈ c.bottom :: es, e.number = f.number → e = f

/-- Composites of lattices are ordered, and bottom is below a state if and only if its call stack is empty.
A join is above its second state, and above its first state if and only if both have the same call stack. -/
theorem lattice_laws (components : c.components = bs.map (·.component))
    (valid : (numbered A).valid store) (made : Made c bs store [e, f, g]) :
    (numbered A).Returns bad (c.le e e) store (fun below _ => below = true) ∧
    (e.parts = f.parts → e.stack = f.stack →
      (numbered A).Returns bad (c.le e f) store fun below _ => below = true) ∧
    (numbered A).Returns bad (do return (← c.le e f, ← c.le f g, ← c.le e g)) store
      (fun (first, second, both) _ => first = true → second = true → both = true) ∧
    (numbered A).Returns bad (c.le c.bottom e) store
      (fun below _ => below = true ↔ e.stack = .empty) ∧
    (numbered A).Returns bad (do let j ← c.join e f; return (← c.le e j, ← c.le f j)) store
      (fun (left, right) _ => right = true ∧ (left = true ↔ e.stack = f.stack)) := by
  have ownE := made.own e (by simp)
  have ownF := made.own f (by simp)
  have ownG := made.own g (by simp)
  have le {x y : CompositeState} (mem : x ∈ c.bottom :: [e, f, g]) (mem' : y ∈ c.bottom :: [e, f, g])
      (ownX : OwnParts bs store.shared x.parts) (ownY : OwnParts bs store.shared y.parts) :
      (numbered A).Decides bad (c.le x y) store (Below bs store.shared x y) :=
    le_decides components ownX ownY (made.unique x mem y mem')
  -- Each law of the composite is the law of its parts; the call stacks have to be equal besides.
  refine ⟨?_, fun parts stack => ?_, ?_, ?_, ?_⟩
  · exact (le (by simp) (by simp) ownE ownE).accepts valid (.inl rfl)
  · exact (le (by simp) (by simp) ownE ownF).accepts valid (.inr ⟨stack, parts ▸ ownE.refl⟩)
  · exact (le (by simp) (by simp) ownE ownF).chain (le (by simp) (by simp) ownF ownG)
      (le (by simp) (by simp) ownE ownG) valid fun first second =>
        first.trans ownE ownF ownG second
  · have parts : c.bottom.parts = (bs.map (·.component)).map (·.bottom) := by
      rw [bottom, components]
    have own : OwnParts bs store.shared c.bottom.parts := parts ▸ OwnParts.bottom valid.1
    have least : PartsBelow store.shared bs c.bottom.parts e.parts := parts ▸ ownE.bottom_below
    refine ((le (by simp) (by simp) own ownE) store valid ((numbered A).grows_refl store)).mono
      fun b _ _ _ iff => iff.trans ⟨?_, fun empty => .inr ⟨empty.symm, least⟩⟩
    rintro (same | ⟨stack, -⟩)
    · exact same ▸ rfl
    · exact stack.symm
  · refine (join_returns components valid ownE ownF).bind
      fun j store' valid' grown ⟨stack, number, ownJ, left, right⟩ => ?_
    -- the join is none of the states that were there before
    have new {x : CompositeState} (old : x.number < store.next) : x.number ≠ j.number :=
      Nat.ne_of_lt (Nat.lt_of_lt_of_le old number)
    have newE := new (made.number e (by simp))
    have newF := new (made.number f (by simp))
    refine ((le_decides components (ownE.mono grown.1) ownJ fun same => (newE same).elim).both
      (le_decides components (ownF.mono grown.1) ownJ fun same => (newF same).elim) valid').mono
      fun (b, b') _ _ _ ⟨iff, iff'⟩ => ⟨iff'.mpr (.inr ⟨stack.symm, right⟩), ?_⟩
    rw [iff, ← stack]
    constructor
    · exact fun below => (below.resolve_left fun same => newE (congrArg CompositeState.number same)).1
    · exact fun same => .inr ⟨same, left⟩

def located : List (LatticeComponent (Ambient.any Unit) (fun _ => False) Unit) :=
  [⟨Analysis.locations.onParts, _, _, Analysis.locations_lattice.onParts⟩,
    ⟨Analysis.values.onParts, _, _, Analysis.values_lattice.onParts⟩]

def locatedValues : Composite Unit Unit := ⟨located.map (·.component), false⟩

def atStart (number : Nat) (values : ExplicitState) (stack : CallStack) : CompositeState :=
  ⟨number, [.location (.point ⟨0⟩), .explicit values], stack⟩

def outside : CompositeState := atStart 1 (ExplicitState.top.assign "x" (some 1)) .empty

def unknown : CompositeState := atStart 2 .top .empty

def called : CompositeState := atStart 3 .top ⟨[⟨"f", ⟨0⟩⟩]⟩

theorem made_located {es : List CompositeState} (known : ∀ e ∈ es, e ∈ [outside, unknown, called]) :
    Made locatedValues located ⟨(), 4, 0⟩ es := by
  have whole : ∀ e ∈ locatedValues.bottom :: es, e ∈ [locatedValues.bottom, outside, unknown, called] :=
    List.forall_mem_cons.mpr ⟨List.mem_cons_self, fun e mem => List.mem_cons_of_mem _ (known e mem)⟩
  have distinct : ([locatedValues.bottom, outside, unknown, called].map (·.number)).Nodup := by decide
  have each : ∀ e ∈ [outside, unknown, called], OwnParts located () e.parts ∧ e.number < 4 := by
    simp only [List.forall_mem_cons]
    have own (values : ExplicitState) : OwnParts located () [.location (.point ⟨0⟩), .explicit values] :=
      .cons ⟨_, rfl, trivial⟩ (.cons ⟨_, rfl, trivial⟩ .nil)
    exact ⟨⟨own _, by decide⟩, ⟨own _, by decide⟩, ⟨own _, by decide⟩, nofun⟩
  exact ⟨fun e mem => (each e (known e mem)).1, fun e mem => (each e (known e mem)).2,
    fun e he f hf same => List.inj_on_of_nodup_map distinct (whole e he) (whole f hf) same⟩

theorem lattice_laws_located :
    (numbered (Ambient.any Unit)).valid ⟨(), 4, 0⟩ ∧
    Made locatedValues located ⟨(), 4, 0⟩ [outside, unknown, called] ∧
    (∃ store, (locatedValues.le locatedValues.bottom outside).run ⟨(), 4, 0⟩ =
      .ok (.ok true, store)) ∧
    (∃ store, (locatedValues.le locatedValues.bottom called).run ⟨(), 4, 0⟩ =
      .ok (.ok false, store)) ∧
    ∃ store, (do
      let j ← locatedValues.join outside unknown
      return (← locatedValues.le outside j, ← locatedValues.le unknown j)).run ⟨(), 4, 0⟩ =
      .ok (.ok (true, true), store) := by
  have valid : (numbered (Ambient.any Unit)).valid ⟨(), 4, 0⟩ := ⟨trivial, by decide⟩
  have made : Made locatedValues located ⟨(), 4, 0⟩ [outside, unknown, called] :=
    made_located fun _ => id
  have others : Made locatedValues located ⟨(), 4, 0⟩ [called, unknown, outside] :=
    made_located (by simp)
  obtain ⟨_, _, _, least, upper⟩ := lattice_laws rfl valid made
  obtain ⟨_, _, _, apart, _⟩ := lattice_laws rfl valid others
  obtain ⟨b, store, tested, _, _, empty⟩ := least.exists_run
  obtain rfl : b = true := empty.mpr rfl
  obtain ⟨b, store', inside, _, _, stack⟩ := apart.exists_run
  obtain rfl : b = false := Bool.eq_false_iff.mpr fun below => nomatch stack.mp below
  obtain ⟨⟨left, right⟩, store'', joined, _, _, above, iff⟩ := upper.exists_run
  rw [above, iff.mpr rfl] at joined
  exact ⟨valid, made, ⟨store, tested⟩, ⟨store', inside⟩, ⟨store'', joined⟩⟩

/-- Of states with different call stacks the first one is not below the join. -/
theorem join_not_above_called :
    Made locatedValues located ⟨(), 4, 0⟩ [called, unknown] ∧
    (do locatedValues.le called (← locatedValues.join called unknown)).run ⟨(), 4, 0⟩ =
      .ok (.ok false, ⟨(), 5, 0⟩) := by
  exact ⟨made_located (by simp), rfl⟩

end Composite

end ProgramAnalysis
