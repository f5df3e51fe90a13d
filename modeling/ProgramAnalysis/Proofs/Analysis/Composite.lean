import Mathlib.Data.List.Forall2
import ProgramAnalysis.Analysis.Composite.Operators
import ProgramAnalysis.Proofs.Analysis.Worklist

/-! A composite of sound components is sound. A composite state contains the moments that all its parts
contain and that have its call stack; every operator does its work part by part. -/
namespace ProgramAnalysis

open Ambient (keeps_pure keeps_anyOf)
open List (Forall₂)

/-- Operators that lose no moment of an execution. States are `seen` as parts of composite states, whose
meaning is `contains`; `good` tells the states that belong to a shared state. -/
structure Analysis.SoundSeen {σ ε π : Type} [BEq ε] (a : Analysis σ ε π) (seen : ε → Part)
    (A : Ambient σ) (contains : Part → Config → Prop) (D : Dialect) (program : Automaton) (π₀ : π)
    (good : σ → ε → Prop) : Prop where
  good_mono : ∀ {s t e}, good s e → A.grows s t → good t e
  same : ∀ {s e f c}, good s e → good s f → (e == f) = true → contains (seen e) c →
    contains (seen f) c
  initial : ∀ {s}, A.valid s → A.Keeps (a.initial program.entry) s fun e t =>
    good t e ∧ ∀ c, Config.Starts D program c → contains (seen e) c
  successors : ∀ {s e edge}, A.valid s → good s e → edge ∈ program.edges →
    A.Keeps (a.successors e π₀ edge) s fun next t => (∀ f ∈ next, good t f) ∧
      ∀ c c', contains (seen e) c → Config.Follows D edge c c' →
        ∃ f ∈ next, contains (seen f) c'
  strengthen : ∀ {s e siblings edge}, A.valid s → good s e →
    A.Keeps (a.strengthen e siblings edge π₀) s fun r t =>
      match r with
      | .unchanged => True
      | .replaced f => good t f ∧
        ∀ c, contains (seen e) c → (∀ p ∈ siblings, contains p c) → contains (seen f) c
      | .infeasible => ∀ c, contains (seen e) c → ¬ ∀ p ∈ siblings, contains p c
  merge : ∀ {s e f}, A.valid s → good s e → good s f →
    A.Keeps (a.merge e f π₀) s fun m t =>
      good t m ∧ ∀ c, contains (seen f) c → contains (seen m) c
  isBottom : ∀ {s e}, A.valid s → good s e →
    A.Keeps (a.isBottom e) s fun b _ => b = true → ∀ c, ¬ contains (seen e) c
  covers : ∀ {s e f}, A.valid s → good s e → good s f →
    A.Keeps (a.covers e f) s fun b _ =>
      b = true → ∀ c, contains (seen e) c → contains (seen f) c

variable {σ π : Type} {A : Ambient σ} {contains : Part → Config → Prop} {D : Dialect}
  {program : Automaton} {π₀ : π}

/-- A component with the proof that it is sound. `good` tells the parts of this component. -/
structure SoundComponent (A : Ambient σ) (contains : Part → Config → Prop) (D : Dialect)
    (program : Automaton) (π₀ : π) where
  component : Component σ π
  good : σ → Part → Prop
  sound : component.SoundSeen id A contains D program π₀ good

/-- The parts of a component that follows locations differ where their points do. -/
structure SoundComponent.Locates (b : SoundComponent A contains D program π₀) : Prop where
  point : ∀ {s p c}, b.good s p → contains p c → p.point? = some c.point
  same : ∀ {s p q c}, b.good s p → b.good s q → p.point? = q.point? → contains p c → contains q c

namespace Composite

def AllContain (contains : Part → Config → Prop) (ps : List Part) (c : Config) : Prop :=
  ∀ p ∈ ps, contains p c

def GoodParts (bs : List (SoundComponent A contains D program π₀)) (s : σ) (ps : List Part) :
    Prop :=
  Forall₂ (fun b p => b.good s p) bs ps

variable {bs : List (SoundComponent A contains D program π₀)} {s t : σ} {ps qs : List Part}

theorem GoodParts.mono (good : GoodParts bs s ps) (grown : A.grows s t) : GoodParts bs t ps :=
  good.imp fun b _ h => b.sound.good_mono h grown

theorem GoodParts.same (goodP : GoodParts bs s ps) (goodQ : GoodParts bs s qs)
    (same : (ps == qs) = true) {c : Config} (all : AllContain contains ps c) :
    AllContain contains qs c := by
  induction goodP generalizing qs with
  | nil =>
    cases goodQ
    exact all
  | @cons b p bs ps here _ ih =>
    cases goodQ with
    | @cons _ q _ qs here' rest' =>
      rw [List.cons_beq_cons, Bool.and_eq_true] at same
      obtain ⟨containsP, all⟩ := List.forall_mem_cons.mp all
      exact List.forall_mem_cons.mpr
        ⟨b.sound.same here here' same.1 containsP, ih rest' same.2 all⟩

/-- The store of composite states; the number of the bottom state is taken. -/
def ambient (A : Ambient σ) : Ambient (CompositeStore σ) where
  valid store := A.valid store.shared ∧ 1 ≤ store.next
  grows store store' := A.grows store.shared store'.shared
  grows_refl store := A.grows_refl store.shared
  grows_trans := A.grows_trans

def reading (bs : List (SoundComponent A contains D program π₀)) :
    Reading (CompositeStore σ) CompositeState where
  toAmbient := ambient A
  contains e c := e.stack = c.stack ∧ AllContain contains e.parts c
  good store e := e.number ≠ 0 ∧ GoodParts bs store.shared e.parts
  good_mono good grown := ⟨good.1, good.2.mono grown⟩

variable {store : CompositeStore σ}

theorem shared_keeps {α : Type} {act : AnalysisM σ α} {result : α → σ → Prop}
    (valid : (ambient A).valid store) (keeps : A.Keeps act store.shared result) :
    (ambient A).Keeps (CompositeM.shared act) store fun a store' => result a store'.shared := by
  unfold Ambient.Keeps CompositeM.shared
  rw [Attempt.ensures_zoom]
  exact keeps.imp (fun a t ⟨valid', grown, holds⟩ => ⟨⟨valid', valid.2⟩, grown, holds⟩)
    fun _ _ _ => trivial

theorem state_keeps (valid : (ambient A).valid store) {stack : CallStack}
    (good : GoodParts bs store.shared ps) :
    (ambient A).Keeps (CompositeM.state ps stack) store fun e store' =>
      (reading bs).good store' e ∧ e.parts = ps ∧ e.stack = stack := by
  unfold Ambient.Keeps CompositeM.state
  rw [Attempt.ensures_bind, Attempt.ensures_get, Attempt.ensures_bind, Attempt.ensures_modify]
  have positive := valid.2
  refine ⟨⟨valid.1, Nat.le_add_left 1 _⟩, A.grows_refl _, ⟨?_, good⟩, rfl, rfl⟩
  simp only
  omega

/-! ### Successors -/

theorem partSuccessors_keeps {edge : Edge} (mem : edge ∈ program.edges)
    (valid : (ambient A).valid store) (good : GoodParts bs store.shared ps) :
    (ambient A).Keeps (partSuccessors π₀ edge (bs.map (·.component)) ps) store fun r store' =>
      match r with
      | none => ∀ c c', AllContain contains ps c → ¬ Config.Follows D edge c c'
      | some nexts =>
        Forall₂ (fun b next => ∀ q ∈ next, b.good store'.shared q) bs nexts ∧
          ∀ c c', AllContain contains ps c → Config.Follows D edge c c' →
            ∀ next ∈ nexts, ∃ q ∈ next, contains q c' := by
  induction bs generalizing ps store with
  | nil =>
    cases good
    exact keeps_pure valid ⟨.nil, by simp⟩
  | cons b bs ih =>
    obtain ⟨p, ps, here, rest, rfl⟩ := List.forall₂_cons_left_iff.mp good
    rw [List.map_cons, partSuccessors]
    refine (shared_keeps valid (b.sound.successors valid.1 here mem)).bind
      fun next store' valid' grown ⟨goodNext, reaches⟩ => ?_
    split
    · rename_i empty
      rw [List.isEmpty_iff] at empty
      refine keeps_pure valid' fun c c' all follows => ?_
      obtain ⟨q, mem, -⟩ := reaches c c' (all p List.mem_cons_self) follows
      rw [empty] at mem
      cases mem
    · refine (ih valid' (GoodParts.mono rest grown)).bind
        fun r store'' valid'' grown' told => keeps_pure valid'' ?_
      cases r with
      | none => exact fun c c' all => told c c' (List.forall_mem_cons.mp all).2
      | some nexts =>
        obtain ⟨goodNexts, others⟩ := told
        refine ⟨.cons (fun q mem => b.sound.good_mono (goodNext q mem) grown') goodNexts,
          fun c c' all follows => ?_⟩
        obtain ⟨containsP, all⟩ := List.forall_mem_cons.mp all
        exact List.forall_mem_cons.mpr ⟨reaches c c' containsP follows, others c c' all follows⟩

theorem mem_combinations {α : Type} {xss : List (List α)} {xs : List α} :
    xs ∈ combinations xss ↔ Forall₂ (· ∈ ·) xs xss := by
  induction xss generalizing xs with
  | nil => simp [combinations]
  | cons ys xss ih =>
    simp only [combinations, List.mem_flatMap, List.mem_map, ih, List.forall₂_cons_right_iff]
    constructor
    · rintro ⟨y, mem, rest, inside, rfl⟩
      exact ⟨y, rest, mem, inside, rfl⟩
    · rintro ⟨y, rest, mem, inside, rfl⟩
      exact ⟨y, mem, rest, inside, rfl⟩

theorem goodParts_of_mem_combinations {nexts : List (List Part)} {tuple : List Part}
    (goodNexts : Forall₂ (fun b next => ∀ q ∈ next, b.good s q) bs nexts)
    (mem : tuple ∈ combinations nexts) : GoodParts bs s tuple := by
  rw [mem_combinations] at mem
  induction goodNexts generalizing tuple with
  | nil =>
    cases mem
    exact .nil
  | cons here _ ih =>
    cases mem with
    | cons inside rest => exact .cons (here _ inside) (ih rest)

theorem exists_combination {nexts : List (List Part)} {c : Config}
    (each : ∀ next ∈ nexts, ∃ q ∈ next, contains q c) :
    ∃ tuple ∈ combinations nexts, AllContain contains tuple c := by
  induction nexts with
  | nil => exact ⟨[], mem_combinations.mpr .nil, by simp [AllContain]⟩
  | cons next nexts ih =>
    obtain ⟨⟨q, mem, holds⟩, rest⟩ := List.forall_mem_cons.mp each
    obtain ⟨tuple, inside, all⟩ := ih rest
    exact ⟨q :: tuple, mem_combinations.mpr (.cons mem (mem_combinations.mp inside)),
      List.forall_mem_cons.mpr ⟨holds, all⟩⟩

theorem strengthenParts_keeps {edge : Edge} {tuple : List Part}
    (valid : (ambient A).valid store) (good : GoodParts bs store.shared ps) :
    (ambient A).Keeps (strengthenParts π₀ edge tuple (bs.map (·.component)) ps) store
      fun r store' =>
        match r with
        | none => ∀ c, AllContain contains ps c → ¬ AllContain contains tuple c
        | some qs => GoodParts bs store'.shared qs ∧
          ∀ c, AllContain contains ps c → AllContain contains tuple c →
            AllContain contains qs c := by
  induction bs generalizing ps store with
  | nil =>
    cases good
    exact keeps_pure valid ⟨.nil, fun c all _ => all⟩
  | cons b bs ih =>
    obtain ⟨p, ps, here, rest, rfl⟩ := List.forall₂_cons_left_iff.mp good
    rw [List.map_cons, strengthenParts]
    refine (shared_keeps valid (b.sound.strengthen valid.1 here)).bind
      fun r store' valid' grown told => ?_
    have others := ih valid' (GoodParts.mono rest grown)
    have extend {q : Part} (goodQ : b.good store'.shared q)
        (keeps : ∀ c, contains p c → AllContain contains tuple c → contains q c) :
        (ambient A).Keeps
          (do return (← strengthenParts π₀ edge tuple (bs.map (·.component)) ps).map (q :: ·))
          store' fun r store'' =>
            match r with
            | none => ∀ c, AllContain contains (p :: ps) c → ¬ AllContain contains tuple c
            | some qs => GoodParts (b :: bs) store''.shared qs ∧
              ∀ c, AllContain contains (p :: ps) c → AllContain contains tuple c →
                AllContain contains qs c := by
      refine others.bind
        fun r store'' valid'' grown' told => keeps_pure valid'' ?_
      cases r with
      | none => exact fun c all => told c (List.forall_mem_cons.mp all).2
      | some qs =>
        obtain ⟨goodQs, kept⟩ := told
        refine ⟨.cons (b.sound.good_mono goodQ grown') goodQs, fun c all siblings => ?_⟩
        obtain ⟨containsP, all⟩ := List.forall_mem_cons.mp all
        exact List.forall_mem_cons.mpr ⟨keeps c containsP siblings, kept c all siblings⟩
    cases r with
    | infeasible =>
      exact keeps_pure valid' fun c all siblings => told c (all p List.mem_cons_self) siblings
    | unchanged => exact extend (b.sound.good_mono here grown) fun _ holds _ => holds
    | replaced q => exact extend told.1 told.2

/-- What becomes of a combination of parts: a state with its moments, or nothing if it has none. -/
def Becomes (bs : List (SoundComponent A contains D program π₀)) (stack : CallStack)
    (tuple : List Part) : Option CompositeState → CompositeStore σ → Prop
  | none, _ => ∀ m, ¬ AllContain contains tuple m
  | some f, store => (reading bs).good store f ∧ f.stack = stack ∧
      ∀ m, AllContain contains tuple m → AllContain contains f.parts m

theorem Becomes.mono {stack : CallStack} {tuple : List Part} {f : Option CompositeState}
    {store store' : CompositeStore σ} (becomes : Becomes bs stack tuple f store)
    (grown : (ambient A).grows store store') : Becomes bs stack tuple f store' := by
  cases f with
  | none => exact becomes
  | some f => exact ⟨(reading bs).good_mono becomes.1 grown, becomes.2⟩

variable {c : Composite σ π} {e r : CompositeState}

theorem successors_keeps (components : c.components = bs.map (·.component)) {edge : Edge}
    (mem : edge ∈ program.edges) (valid : (ambient A).valid store)
    (good : (reading bs).good store e) :
    (ambient A).Keeps (c.successors e π₀ edge) store fun next store' =>
      (∀ f ∈ next, (reading bs).good store' f) ∧
        ∀ m m', (reading bs).contains e m → Config.Follows D edge m m' →
          ∃ f ∈ next, (reading bs).contains f m' := by
  unfold successors
  split
  · rename_i none
    refine keeps_pure valid ⟨by simp, fun m m' contained follows => ?_⟩
    have moves := CallStack.after?_of_moves follows.moves
    rw [← contained.1, none] at moves
    cases moves
  · rename_i stack after
    rw [components]
    refine (partSuccessors_keeps mem valid good.2).bind fun nexts store' valid' grown told => ?_
    cases nexts with
    | none =>
      exact keeps_pure valid' ⟨by simp, fun m m' contained follows =>
        (told m m' contained.2 follows).elim⟩
    | some nexts =>
      obtain ⟨goodNexts, reaches⟩ := told
      refine (Ambient.keeps_filterMapM (Becomes bs stack) Becomes.mono valid' ?_).mono ?_
      · intro tuple inside store'' valid'' grown'
        have goodTuple := (goodParts_of_mem_combinations goodNexts inside).mono grown'
        refine (strengthenParts_keeps valid'' goodTuple).bind fun parts store₃ valid₃ _ told => ?_
        cases parts with
        | none => exact keeps_pure valid₃ fun m all => told m all all
        | some parts =>
          refine (state_keeps valid₃ told.1).bind fun f store₄ valid₄ _ ⟨goodF, parts, stack⟩ => ?_
          refine keeps_pure valid₄ ⟨goodF, stack, fun m all => ?_⟩
          rw [parts]
          exact told.2 m all all
      · rintro fs store₃ - - ⟨origin, found⟩
        refine ⟨fun f mem => ?_, fun m m' contained follows => ?_⟩
        · obtain ⟨tuple, -, becomes⟩ := origin f mem
          exact becomes.1
        · have moves := CallStack.after?_of_moves follows.moves
          rw [← contained.1, after] at moves
          obtain ⟨tuple, inside, all⟩ := exists_combination (reaches m m' contained.2 follows)
          rcases found tuple inside with none | ⟨f, mem, -, same, keeps⟩
          · exact (none m' all).elim
          · exact ⟨f, mem, same.trans (Option.some.inj moves), keeps m' all⟩

/-! ### Merging and covering -/

theorem zipParts_keeps (valid : (ambient A).valid store) (goodP : GoodParts bs store.shared ps)
    (goodQ : GoodParts bs store.shared qs) :
    (ambient A).Keeps (zipParts (fun a p q => a.merge p q π₀) (bs.map (·.component)) ps qs) store
      fun ms store' => GoodParts bs store'.shared ms ∧
        ∀ m, AllContain contains qs m → AllContain contains ms m := by
  induction bs generalizing ps qs store with
  | nil =>
    cases goodP
    cases goodQ
    exact keeps_pure valid ⟨.nil, fun m all => all⟩
  | cons b bs ih =>
    obtain ⟨p, ps, hereP, restP, rfl⟩ := List.forall₂_cons_left_iff.mp goodP
    obtain ⟨q, qs, hereQ, restQ, rfl⟩ := List.forall₂_cons_left_iff.mp goodQ
    rw [List.map_cons, zipParts]
    refine (shared_keeps valid (b.sound.merge valid.1 hereP hereQ)).bind
      fun m store' valid' grown ⟨goodM, larger⟩ => ?_
    refine (ih valid' (GoodParts.mono restP grown) (GoodParts.mono restQ grown)).bind
      fun ms store'' valid'' grown' ⟨goodMs, others⟩ => keeps_pure valid'' ?_
    refine ⟨.cons (b.sound.good_mono goodM grown') goodMs, fun c all => ?_⟩
    obtain ⟨containsQ, all⟩ := List.forall_mem_cons.mp all
    exact List.forall_mem_cons.mpr ⟨larger c containsQ, others c all⟩

theorem merge_keeps (components : c.components = bs.map (·.component))
    (valid : (ambient A).valid store) (goodE : (reading bs).good store e)
    (goodR : (reading bs).good store r) :
    (ambient A).Keeps (c.merge e r π₀) store fun m store' =>
      (reading bs).good store' m ∧ ∀ x, (reading bs).contains r x → (reading bs).contains m x := by
  unfold merge
  split
  · exact keeps_pure valid ⟨goodR, fun _ h => h⟩
  · rw [components]
    refine (zipParts_keeps valid goodE.2 goodR.2).bind
      fun ms store' valid' grown ⟨goodMs, larger⟩ => ?_
    split
    · exact keeps_pure valid' ⟨(reading bs).good_mono goodR grown, fun _ h => h⟩
    · refine (state_keeps valid' goodMs).mono
        fun m store'' _ _ ⟨goodM, parts, stack⟩ => ⟨goodM, fun x contained => ?_⟩
      exact ⟨stack.trans contained.1, parts ▸ larger x contained.2⟩

theorem allParts_keeps (valid : (ambient A).valid store) (goodP : GoodParts bs store.shared ps)
    (goodQ : GoodParts bs store.shared qs) :
    (ambient A).Keeps (allParts (·.covers) (bs.map (·.component)) ps qs) store
      fun answer _ => answer = true →
        ∀ m, AllContain contains ps m → AllContain contains qs m := by
  induction bs generalizing ps qs store with
  | nil =>
    cases goodP
    cases goodQ
    exact keeps_pure valid fun _ m all => all
  | cons b bs ih =>
    obtain ⟨p, ps, hereP, restP, rfl⟩ := List.forall₂_cons_left_iff.mp goodP
    obtain ⟨q, qs, hereQ, restQ, rfl⟩ := List.forall₂_cons_left_iff.mp goodQ
    rw [List.map_cons, allParts]
    refine (shared_keeps valid (b.sound.covers valid.1 hereP hereQ)).bind
      fun answer store' valid' grown covered => ?_
    split
    · rename_i yes
      refine (ih valid' (GoodParts.mono restP grown) (GoodParts.mono restQ grown)).mono
        fun answer _ _ _ others yes' m all => ?_
      obtain ⟨containsP, all⟩ := List.forall_mem_cons.mp all
      exact List.forall_mem_cons.mpr ⟨covered yes m containsP, others yes' m all⟩
    · exact keeps_pure valid' nofun

theorem anyCheckedBottom_keeps (valid : (ambient A).valid store)
    (good : GoodParts bs store.shared ps) :
    (ambient A).Keeps (anyCheckedBottom (bs.map (·.component)) ps) store
      fun answer _ => answer = true → ∀ m, ¬ AllContain contains ps m := by
  induction bs generalizing ps store with
  | nil =>
    cases good
    exact keeps_pure valid nofun
  | cons b bs ih =>
    obtain ⟨p, ps, here, rest, rfl⟩ := List.forall₂_cons_left_iff.mp good
    rw [List.map_cons, anyCheckedBottom]
    refine (shared_keeps valid (b.sound.isBottom valid.1 here)).bind
      fun answer store' valid' grown empty => ?_
    split
    · rename_i yes
      exact keeps_pure valid' fun _ m all => empty yes m (all p List.mem_cons_self)
    · refine (ih valid' (GoodParts.mono rest grown)).mono fun answer _ _ _ others yes m all => ?_
      exact others yes m (List.forall_mem_cons.mp all).2

variable {b : SoundComponent A contains D program π₀}

/-- The parts that are not checked are those of the component that follows locations. -/
theorem allContain_of_checked {k : Nat} (few : k ≤ 1) (locates : b.Locates)
    (goodP : GoodParts (b :: bs) s ps) (goodQ : GoodParts (b :: bs) s qs)
    (point : ps.head?.bind Part.point? = qs.head?.bind Part.point?) {m : Config}
    (checked : AllContain contains (ps.drop k) m → AllContain contains (qs.drop k) m)
    (all : AllContain contains ps m) : AllContain contains qs m := by
  obtain ⟨p, ps, hereP, -, rfl⟩ := List.forall₂_cons_left_iff.mp goodP
  obtain ⟨q, qs, hereQ, -, rfl⟩ := List.forall₂_cons_left_iff.mp goodQ
  obtain ⟨containsP, rest⟩ := List.forall_mem_cons.mp all
  match k, few with
  | 0, _ => exact checked all
  | 1, _ =>
    exact List.forall_mem_cons.mpr ⟨locates.same hereP hereQ point containsP, checked rest⟩

theorem covers_keeps (components : c.components = (b :: bs).map (·.component))
    (locates : b.Locates) (valid : (ambient A).valid store)
    (goodE : (reading (b :: bs)).good store e) (goodR : (reading (b :: bs)).good store r) :
    (ambient A).Keeps (c.covers e r) store fun answer _ =>
      answer = true → ∀ m, (reading (b :: bs)).contains e m → (reading (b :: bs)).contains r m := by
  have few : c.firstChecked ≤ 1 := by
    unfold firstChecked
    split <;> decide
  unfold covers Ambient.Keeps
  rw [Attempt.ensures_bind, Attempt.ensures_modify]
  split
  · exact ⟨valid, A.grows_refl _, nofun⟩
  · rename_i sameStack
    split
    · exact Ambient.keeps_violation (A := ambient A)
    · rename_i samePoint
      split
      · exact Ambient.keeps_violation (A := ambient A)
      · rw [components, ← List.map_drop]
        refine Attempt.Ensures.mono (allParts_keeps (A := A) valid
          (List.forall₂_drop _ goodE.2) (List.forall₂_drop _ goodR.2)) ?_
        rintro answer store' ⟨valid', grown, covered⟩
        refine ⟨valid', grown, fun yes m contained => ?_⟩
        refine ⟨(not_not.mp sameStack).symm.trans contained.1, ?_⟩
        exact allContain_of_checked few locates goodE.2 goodR.2 (not_not.mp samePoint)
          (covered yes m) contained.2

theorem stop_keeps (components : c.components = (b :: bs).map (·.component))
    (locates : b.Locates) {rs : List CompositeState} (valid : (ambient A).valid store)
    (goodE : (reading (b :: bs)).good store e)
    (goodRs : ∀ r ∈ rs, (reading (b :: bs)).good store r) :
    (ambient A).Keeps (c.stop e rs) store fun answer _ => answer = true →
      ∀ m, (reading (b :: bs)).contains e m → ∃ r ∈ rs, (reading (b :: bs)).contains r m := by
  have made : ¬ e.isCanonicalBottom = true := fun bottom => goodE.1 (of_decide_eq_true bottom)
  unfold stop
  rw [if_neg made, components, ← List.map_drop]
  refine (anyCheckedBottom_keeps valid (List.forall₂_drop _ goodE.2)).bind
    fun answer store' valid' grown empty => ?_
  split
  · rename_i yes
    refine keeps_pure valid' fun _ m contained => ?_
    exact (empty yes m fun p mem => contained.2 p (List.mem_of_mem_drop mem)).elim
  · have goodE' := (reading (b :: bs)).good_mono goodE grown
    refine (keeps_anyOf (fun r => ∀ m, (reading (b :: bs)).contains e m →
      (reading (b :: bs)).contains r m) valid' fun r mem store'' valid'' grown' => ?_).mono
      fun answer _ _ _ found yes m contained => ?_
    · have goodR := (reading (b :: bs)).good_mono (goodRs r mem)
        ((ambient A).grows_trans grown grown')
      exact covers_keeps components locates valid''
        ((reading (b :: bs)).good_mono goodE' grown') goodR
    · obtain ⟨r, mem, covers⟩ := found yes
      exact ⟨r, mem, covers m contained⟩

/-! ### The composite as an analysis -/

theorem initialParts_keeps (valid : (ambient A).valid store) :
    (ambient A).Keeps
      ((bs.map (·.component)).mapM fun a => CompositeM.shared (a.initial program.entry)) store
      fun ps store' => GoodParts bs store'.shared ps ∧
        ∀ m, Config.Starts D program m → AllContain contains ps m := by
  induction bs generalizing store with
  | nil => exact keeps_pure valid ⟨.nil, fun m _ p mem => (List.not_mem_nil mem).elim⟩
  | cons b bs ih =>
    rw [List.map_cons, List.mapM_cons]
    refine (shared_keeps valid (b.sound.initial valid.1)).bind
      fun p store' valid' grown ⟨goodP, starts⟩ => ?_
    refine (ih valid').bind fun ps store'' valid'' grown' ⟨goodPs, others⟩ =>
      keeps_pure valid'' ⟨.cons (b.sound.good_mono goodP grown') goodPs, fun m begins => ?_⟩
    exact List.forall_mem_cons.mpr ⟨starts m begins, others m begins⟩

theorem analysis_sound (components : c.components = (b :: bs).map (·.component))
    (locates : b.Locates) : c.analysis.Sound (reading (b :: bs)) D program π₀ where
  point good contained := by
    obtain ⟨p, ps, here, -, parts⟩ := List.forall₂_cons_left_iff.mp good.2
    have holds := contained.2 p (parts ▸ List.mem_cons_self)
    change CompositeState.point? _ = _
    rw [CompositeState.point?, parts]
    exact locates.point here holds
  same goodE goodF equal contained := by
    obtain ⟨stack, parts⟩ := (Bool.and_eq_true _ _).mp equal
    exact ⟨(of_decide_eq_true stack).symm.trans contained.1,
      goodE.2.same goodF.2 parts contained.2⟩
  initial valid := by
    change (ambient A).Keeps (c.initial program.entry) _ _
    unfold initial
    rw [components]
    refine (initialParts_keeps valid).bind fun ps store' valid' _ ⟨good, starts⟩ => ?_
    refine (state_keeps valid' good).mono fun e _ _ _ ⟨goodE, parts, stack⟩ =>
      ⟨goodE, fun m begins => ⟨stack.trans begins.stack.symm, ?_⟩⟩
    rw [parts]
    exact starts m begins
  successors valid good mem := successors_keeps components mem valid good
  merge valid goodE goodR := merge_keeps components valid goodE goodR
  stop valid goodE goodRs := stop_keeps components locates valid goodE goodRs

theorem exists_state_of_reached (components : c.components = (b :: bs).map (·.component))
    (locates : b.Locates) {specialized : Bool} {limit : Nat} {r : ReachedSet CompositeState π}
    {report : RunReport} {y : Exploration (CompositeStore σ) CompositeState π}
    (valid : (ambient A).valid store)
    (started : (c.analysis.start program specialized π₀).run store = .ok (.ok r, store'))
    (ran : (c.analysis.run program limit).run ⟨store', r⟩ = .ok (.ok report, y))
    (complete : report.incomplete = false) {m : Config} (reached : Config.Reached D program m) :
    ∃ e ∈ y.reached.statesAt m.point, e.stack = m.stack ∧
      (ambient A).valid y.shared ∧ GoodParts (b :: bs) y.shared.shared e.parts ∧
        AllContain contains e.parts m := by
  have sound : c.analysis.Sound (reading (b :: bs)) D program π₀ := analysis_sound components locates
  obtain ⟨good, ⟨⟨e, p⟩, mem, contained⟩⟩ :=
    Analysis.covers_of_reached sound valid started ran complete reached
  have goodE := good.reached.entries _ mem
  refine ⟨e, ?_, contained.1, good.valid, goodE.2, contained.2⟩
  refine List.mem_filter.mpr ⟨List.mem_map_of_mem mem, ?_⟩
  exact decide_eq_true (sound.point goodE contained)

end Composite

end ProgramAnalysis
