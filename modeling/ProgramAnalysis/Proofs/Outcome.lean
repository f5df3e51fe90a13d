import ProgramAnalysis.Violation

/-! What computations ensure. A statement about a computation names the violations it may end with,
the failures it may report and what its result and its state satisfy then. Every rule is stated as an
equivalence over one step, so a statement about a whole computation is taken apart from the front. -/
namespace ProgramAnalysis

namespace Checked

variable {ε σ τ ρ α β : Type} {bad bad' : ε → Prop} {s : σ}

/-- Only the violations `bad` are possible, and every result satisfies `good`. -/
def Ensures (act : StateT σ (Except ε) α) (s : σ) (bad : ε → Prop) (good : α → σ → Prop) :
    Prop :=
  match act s with
  | .ok (a, s') => good a s'
  | .error v => bad v

theorem Ensures.of_ok {act : StateT σ (Except ε) α} {good : α → σ → Prop} {a : α} {s' : σ}
    (h : Ensures act s bad good) (run : act s = .ok (a, s')) : good a s' := by
  simpa [Ensures, run] using h

theorem Ensures.of_error {act : StateT σ (Except ε) α} {good : α → σ → Prop} {v : ε}
    (h : Ensures act s bad good) (run : act s = .error v) : bad v := by
  simpa [Ensures, run] using h

theorem ensures_of_forall {act : StateT σ (Except ε) α} {good : α → σ → Prop}
    (ok : ∀ a s', act s = .ok (a, s') → good a s') (error : ∀ v, act s = .error v → bad v) :
    Ensures act s bad good := by
  unfold Ensures
  split
  · exact ok _ _ (by assumption)
  · exact error _ (by assumption)

theorem Ensures.imp {act : StateT σ (Except ε) α} {good good' : α → σ → Prop}
    (h : Ensures act s bad good) (step : ∀ a s', good a s' → good' a s')
    (worse : ∀ v, bad v → bad' v) : Ensures act s bad' good' := by
  unfold Ensures at h ⊢
  split at h
  · exact step _ _ h
  · exact worse _ h

theorem Ensures.mono {act : StateT σ (Except ε) α} {good good' : α → σ → Prop}
    (h : Ensures act s bad good) (step : ∀ a s', good a s' → good' a s') :
    Ensures act s bad good' :=
  h.imp step fun _ => id

theorem Ensures.weaken {act : StateT σ (Except ε) α} {good : α → σ → Prop}
    (h : Ensures act s bad good) (worse : ∀ v, bad v → bad' v) : Ensures act s bad' good :=
  h.imp (fun _ _ => id) worse

theorem Ensures.and {act : StateT σ (Except ε) α} {good good' : α → σ → Prop}
    (h : Ensures act s bad good) (h' : Ensures act s bad' good') :
    Ensures act s bad fun a s' => good a s' ∧ good' a s' := by
  unfold Ensures at h h' ⊢
  split <;> simp_all

theorem exists_of_bind {act : StateT σ (Except ε) α} {next : α → StateT σ (Except ε) β} {b : β} {s' : σ}
    (found : (act >>= next).run s = .ok (b, s')) :
    ∃ a t, act.run s = .ok (a, t) ∧ (next a).run t = .ok (b, s') := by
  rw [StateT.run_bind] at found
  cases run : act.run s with
  | error v =>
    rw [run] at found
    cases found
  | ok r =>
    rw [run] at found
    exact ⟨r.1, r.2, rfl, found⟩

theorem run_bind_of_ok {act : StateT σ (Except ε) α} {next : α → StateT σ (Except ε) β} {a : α} {s' : σ}
    (run : act.run s = .ok (a, s')) : (act >>= next).run s = (next a).run s' := by
  rw [StateT.run_bind, run]
  rfl

theorem run_get (s : σ) : (get : StateT σ (Except ε) σ).run s = .ok (s, s) := rfl

theorem run_liftM_ok (a : α) (s : σ) :
    (liftM (Except.ok a : Except ε α) : StateT σ (Except ε) α).run s = .ok (a, s) := rfl

theorem Ensures.exists_run {act : StateT σ (Except ε) α} {good : α → σ → Prop}
    (h : Ensures act s (fun _ => False) good) : ∃ a s', act s = .ok (a, s') ∧ good a s' := by
  unfold Ensures at h
  cases run : act s with
  | error v =>
    rw [run] at h
    exact h.elim
  | ok r =>
    rw [run] at h
    exact ⟨r.1, r.2, rfl, h⟩

@[simp] theorem ensures_pure {a : α} {good : α → σ → Prop} :
    Ensures (pure a : StateT σ (Except ε) α) s bad good ↔ good a s := Iff.rfl

@[simp] theorem ensures_throw {v : ε} {good : α → σ → Prop} :
    Ensures (throw v : StateT σ (Except ε) α) s bad good ↔ bad v := Iff.rfl

@[simp] theorem ensures_get {good : σ → σ → Prop} :
    Ensures (get : StateT σ (Except ε) σ) s bad good ↔ good s s := Iff.rfl

@[simp] theorem ensures_set {s' : σ} {good : PUnit → σ → Prop} :
    Ensures (set s' : StateT σ (Except ε) PUnit) s bad good ↔ good ⟨⟩ s' := Iff.rfl

@[simp] theorem ensures_modify {f : σ → σ} {good : PUnit → σ → Prop} :
    Ensures (modify f : StateT σ (Except ε) PUnit) s bad good ↔ good ⟨⟩ (f s) := Iff.rfl

@[simp] theorem ensures_bind {act : StateT σ (Except ε) α} {f : α → StateT σ (Except ε) β}
    {good : β → σ → Prop} :
    Ensures (act >>= f) s bad good ↔ Ensures act s bad fun a s' => Ensures (f a) s' bad good := by
  cases run : act s with
  | error v => simp [Ensures, bind, StateT.bind, Except.bind, run]
  | ok r => simp [Ensures, bind, StateT.bind, Except.bind, run]

@[simp] theorem ensures_map {act : StateT σ (Except ε) α} {f : α → β} {good : β → σ → Prop} :
    Ensures (f <$> act) s bad good ↔ Ensures act s bad fun a s' => good (f a) s' := by
  rw [← bind_pure_comp, ensures_bind]
  rfl

@[simp] theorem ensures_liftM {act : Except ε α} {good : α → σ → Prop} :
    Ensures (liftM act : StateT σ (Except ε) α) s bad good ↔
      (∀ a, act = .ok a → good a s) ∧ ∀ v, act = .error v → bad v := by
  cases act <;> simp [Ensures, liftM, monadLift, MonadLift.monadLift, StateT.lift, bind, pure,
    Except.bind, Except.pure]

theorem ensures_zoom {split : σ → τ × ρ} {join : τ → ρ → σ} {act : Checked τ α}
    {bad : Violation → Prop} {good : α → σ → Prop} : Ensures (zoom split join act) s bad good ↔
      Ensures act (split s).1 bad fun a t => good a (join t (split s).2) := by
  rcases h : split s with ⟨t, r⟩
  simp only [Ensures, zoom, h]
  cases act t <;> rfl

theorem ensures_foldlM {f : β → α → StateT σ (Except ε) β} {xs : List α} {b : β}
    (inv : List α → β → σ → Prop)
    (start : inv xs b s)
    (step : ∀ x rest b s, inv (x :: rest) b s → Ensures (f b x) s bad fun b s' => inv rest b s') :
    Ensures (xs.foldlM f b) s bad fun b s' => inv [] b s' := by
  induction xs generalizing b s with
  | nil => simpa using start
  | cons x xs ih =>
    rw [List.foldlM_cons, ensures_bind]
    exact (step x xs b s start).mono fun b s' h => ih h

theorem ensures_mapM {f : α → StateT σ (Except ε) β} {xs : List α} (inv : σ → Prop)
    (grows : σ → σ → Prop) (tells : β → σ → Prop) (refl : ∀ s, grows s s)
    (trans : ∀ {s t u}, grows s t → grows t u → grows s u)
    (lasts : ∀ {b s t}, tells b s → grows s t → tells b t) (start : inv s)
    (each : ∀ x ∈ xs, ∀ s, inv s → Ensures (f x) s bad fun b t => inv t ∧ grows s t ∧ tells b t) :
    Ensures (xs.mapM f) s bad fun bs t => inv t ∧ grows s t ∧ ∀ b ∈ bs, tells b t := by
  induction xs generalizing s with
  | nil => exact ⟨start, refl s, by simp⟩
  | cons x xs ih =>
    obtain ⟨here, rest⟩ := List.forall_mem_cons.mp each
    rw [List.mapM_cons, ensures_bind]
    refine (here s start).mono fun b t ⟨kept, grown, told⟩ => ?_
    rw [ensures_bind]
    refine (ih kept rest).mono fun bs u ⟨kept, more, others⟩ => ?_
    exact ⟨kept, trans grown more, List.forall_mem_cons.mpr ⟨lasts told more, others⟩⟩

theorem run_mapM_of_ok {f : α → StateT σ (Except ε) β} {g : α → β} {xs : List α}
    (each : ∀ x ∈ xs, (f x).run s = .ok (g x, s)) : (xs.mapM f).run s = .ok (xs.map g, s) := by
  induction xs with
  | nil => rfl
  | cons x xs ih =>
    obtain ⟨here, rest⟩ := List.forall_mem_cons.mp each
    rw [List.mapM_cons, run_bind_of_ok here, run_bind_of_ok (ih rest)]
    rfl

end Checked

namespace Outcome

variable {ε α β : Type}

theorem exists_of_bind {act : Except ε α} {next : α → Except ε β} {b : β}
    (found : act >>= next = .ok b) : ∃ a, act = .ok a ∧ next a = .ok b := by
  cases act with
  | error e => cases found
  | ok a => exact ⟨a, rfl, found⟩

/-- Every result satisfies `good`; nothing is said of failures and violations. -/
def Yields (act : Outcome ε α) (good : α → Prop) : Prop := ∀ a, act.run = .ok (.ok a) → good a

theorem Yields.mono {act : Outcome ε α} {good good' : α → Prop} (h : Yields act good)
    (step : ∀ a, good a → good' a) : Yields act good' := fun a run => step a (h a run)

@[simp] theorem yields_pure {a : α} {good : α → Prop} :
    Yields (pure a : Outcome ε α) good ↔ good a := by
  constructor
  · intro h
    exact h a rfl
  · intro h b run
    cases run
    exact h

@[simp] theorem yields_throw {e : ε} {good : α → Prop} : Yields (throw e : Outcome ε α) good := by
  rintro a ⟨⟩

@[simp] theorem yields_bind {act : Outcome ε α} {f : α → Outcome ε β} {good : β → Prop} :
    Yields (act >>= f) good ↔ Yields act fun a => Yields (f a) good := by
  unfold Yields
  rw [ExceptT.run_bind]
  cases act.run with
  | error v => simp [bind, Except.bind]
  | ok r => cases r <;> simp [bind, Except.bind, pure, Except.pure]

theorem yields_adapt {ε' : Type} {f : ε → ε'} {act : Outcome ε α} {good : α → Prop} :
    Yields (ExceptT.adapt f act : Outcome ε' α) good ↔ Yields act good := by
  constructor <;> intro h
  · rintro a ⟨⟩
    exact h a rfl
  · intro a run
    cases act with
    | error v => cases run
    | ok r =>
      cases r with
      | error e => cases run
      | ok a =>
        cases run
        exact h a rfl

theorem yields_lift {act : Except Violation α} {good : α → Prop} :
    Yields (ExceptT.lift act : Outcome ε α) good ↔ ∀ a, act = .ok a → good a := by
  cases act <;> simp [Yields, ExceptT.lift, ExceptT.mk, ExceptT.run, Functor.map, Except.map]

@[simp] theorem yields_liftM {act : Except Violation α} {good : α → Prop} :
    Yields (liftM act : Outcome ε α) good ↔ ∀ a, act = .ok a → good a := by
  cases act <;> simp [Yields, liftM, monadLift, MonadLift.monadLift, ExceptT.lift, ExceptT.mk,
    ExceptT.run, Functor.map, Except.map]

/-- Only the violations `bad` are possible and every result satisfies `good`; nothing is said of
failures. -/
def Ensures (act : Outcome ε α) (bad : Violation → Prop) (good : α → Prop) : Prop :=
  (∀ v, act.run = .error v → bad v) ∧ Yields act good

section Ensures

variable {act : Outcome ε α} {bad : Violation → Prop} {good good' : α → Prop}

theorem Ensures.mono (h : Ensures act bad good) (step : ∀ a, good a → good' a) :
    Ensures act bad good' := ⟨h.1, h.2.mono step⟩

theorem ensures_pure {a : α} : Ensures (pure a : Outcome ε α) bad good ↔ good a := by
  constructor
  · exact fun h => h.2 a rfl
  · exact fun h => ⟨nofun, yields_pure.mpr h⟩

theorem ensures_throw {e : ε} : Ensures (throw e : Outcome ε α) bad good := ⟨nofun, yields_throw⟩

theorem ensures_bind {f : α → Outcome ε β} {good : β → Prop} :
    Ensures (act >>= f) bad good ↔ Ensures act bad fun a => Ensures (f a) bad good := by
  unfold Ensures Yields
  rw [ExceptT.run_bind]
  cases act.run with
  | error v => simp [bind, Except.bind]
  | ok r => cases r <;> simp [bind, Except.bind, pure, Except.pure]

theorem ensures_liftM {act : Except Violation α} :
    Ensures (liftM act : Outcome ε α) bad good ↔
      (∀ v, act = .error v → bad v) ∧ ∀ a, act = .ok a → good a := by
  unfold Ensures
  rw [yields_liftM]
  apply and_congr_left'
  cases act <;> simp [liftM, monadLift, MonadLift.monadLift, ExceptT.lift, ExceptT.mk, ExceptT.run,
    Functor.map, Except.map]

end Ensures

end Outcome

namespace Attempt

variable {ε ε' σ τ ρ α β : Type} {bad : Violation → Prop} {fail : ε → σ → Prop} {s : σ}

/-- As for computations that cannot fail; a failure satisfies `fail` with the state it leaves. -/
def Ensures (act : Attempt ε σ α) (s : σ) (bad : Violation → Prop) (fail : ε → σ → Prop)
    (good : α → σ → Prop) : Prop :=
  Checked.Ensures act.run s bad fun r s' =>
    match r with
    | .ok a => good a s'
    | .error e => fail e s'

theorem Ensures.of_ok {act : Attempt ε σ α} {good : α → σ → Prop} {a : α} {s' : σ}
    (h : Ensures act s bad fail good) (run : act.run s = .ok (.ok a, s')) : good a s' := by
  unfold Ensures at h
  exact h.of_ok run

theorem Ensures.of_violation {act : Attempt ε σ α} {good : α → σ → Prop} {v : Violation}
    (h : Ensures act s bad fail good) (run : act.run s = .error v) : bad v := by
  unfold Ensures at h
  exact h.of_error run

theorem Ensures.exists_run {act : Attempt ε σ α} {good : α → σ → Prop}
    (h : Ensures act s (fun _ => False) (fun _ _ => False) good) :
    ∃ a s', act.run s = .ok (.ok a, s') ∧ good a s' := by
  obtain ⟨r, s', run, h⟩ := Checked.Ensures.exists_run h
  cases r with
  | error e => exact h.elim
  | ok a => exact ⟨a, s', run, h⟩

theorem run_bind_of_ok {act : Attempt ε σ α} {next : α → Attempt ε σ β} {a : α} {s' : σ}
    (run : act.run s = .ok (.ok a, s')) : (act >>= next).run s = (next a).run s' := by
  rw [ExceptT.run_bind]
  exact Checked.run_bind_of_ok run

theorem Ensures.run_eq_error {act : Attempt ε σ α} {v : Violation}
    (h : Ensures act s (· = v) (fun _ _ => False) fun _ _ => False) : act.run s = .error v := by
  cases run : act.run s with
  | error w => exact congrArg Except.error (h.of_violation run)
  | ok r =>
    obtain ⟨a, t⟩ := r
    cases a with
    | error e => exact (Checked.Ensures.of_ok h run).elim
    | ok a => exact (h.of_ok run).elim

theorem Ensures.imp {act : Attempt ε σ α} {good good' : α → σ → Prop} {fail' : ε → σ → Prop}
    (h : Ensures act s bad fail good) (step : ∀ a s', good a s' → good' a s')
    (failed : ∀ e s', fail e s' → fail' e s') : Ensures act s bad fail' good' :=
  Checked.Ensures.mono h fun r s' hr => by
    cases r with
    | ok a => exact step a s' hr
    | error e => exact failed e s' hr

theorem Ensures.mono {act : Attempt ε σ α} {good good' : α → σ → Prop}
    (h : Ensures act s bad fail good) (step : ∀ a s', good a s' → good' a s') :
    Ensures act s bad fail good' :=
  h.imp step fun _ _ => id

theorem Ensures.weaken {act : Attempt ε σ α} {bad' : Violation → Prop} {good : α → σ → Prop}
    (h : Ensures act s bad fail good) (worse : ∀ v, bad v → bad' v) : Ensures act s bad' fail good :=
  Checked.Ensures.weaken h worse

theorem Ensures.and {act : Attempt ε σ α} {good good' : α → σ → Prop} {bad' : Violation → Prop}
    {fail' : ε → σ → Prop} (h : Ensures act s bad fail good) (h' : Ensures act s bad' fail' good') :
    Ensures act s bad (fun e s' => fail e s' ∧ fail' e s') fun a s' => good a s' ∧ good' a s' :=
  (Checked.Ensures.and h h').mono fun r s' ⟨first, second⟩ => by
    cases r <;> exact ⟨first, second⟩

theorem ensures_true (act : Attempt ε σ α) (s : σ) :
    Ensures act s (fun _ => True) (fun _ _ => True) fun _ _ => True := by
  unfold Ensures
  apply Checked.ensures_of_forall
  · intro r _ _
    cases r <;> trivial
  · exact fun _ _ => trivial

@[simp] theorem ensures_pure {a : α} {good : α → σ → Prop} :
    Ensures (pure a : Attempt ε σ α) s bad fail good ↔ good a s := Iff.rfl

@[simp] theorem ensures_throw {e : ε} {good : α → σ → Prop} :
    Ensures (throw e : Attempt ε σ α) s bad fail good ↔ fail e s := Iff.rfl

@[simp] theorem ensures_get {good : σ → σ → Prop} :
    Ensures (get : Attempt ε σ σ) s bad fail good ↔ good s s := Iff.rfl

@[simp] theorem ensures_modify {f : σ → σ} {good : PUnit → σ → Prop} :
    Ensures (modify f : Attempt ε σ PUnit) s bad fail good ↔ good ⟨⟩ (f s) := Iff.rfl

@[simp] theorem ensures_bind {act : Attempt ε σ α} {f : α → Attempt ε σ β} {good : β → σ → Prop} :
    Ensures (act >>= f) s bad fail good ↔
      Ensures act s bad fail fun a s' => Ensures (f a) s' bad fail good := by
  unfold Ensures
  rw [ExceptT.run_bind, Checked.ensures_bind]
  apply iff_of_eq
  congr 1
  funext r s'
  cases r <;> rfl

@[simp] theorem ensures_map {act : Attempt ε σ α} {f : α → β} {good : β → σ → Prop} :
    Ensures (f <$> act) s bad fail good ↔ Ensures act s bad fail fun a s' => good (f a) s' := by
  rw [← bind_pure_comp, ensures_bind]
  rfl

@[simp] theorem ensures_lift {act : Checked σ α} {good : α → σ → Prop} :
    Ensures (lift act : Attempt ε σ α) s bad fail good ↔ Checked.Ensures act s bad good := by
  unfold Ensures lift
  simp [ExceptT.run_lift]

theorem ensures_ofOutcome {act : Outcome ε α} {good : α → σ → Prop} :
    Ensures (ofOutcome act : Attempt ε σ α) s bad fail good ↔
      (∀ a, act.run = .ok (.ok a) → good a s) ∧ (∀ e, act.run = .ok (.error e) → fail e s) ∧
        ∀ v, act.run = .error v → bad v := by
  unfold Ensures ofOutcome Checked.Ensures
  cases act.run with
  | error v => simp [ExceptT.mk, ExceptT.run]
  | ok r => cases r <;> simp [ExceptT.mk, ExceptT.run]

theorem ensures_ofOutcome_lift {act : Except Violation α} {good : α → σ → Prop} :
    Ensures (ofOutcome (ExceptT.lift act) : Attempt ε σ α) s bad fail good ↔
      (∀ a, act = .ok a → good a s) ∧ ∀ v, act = .error v → bad v := by
  rw [ensures_ofOutcome]
  cases act with
  | error v => simp [ExceptT.lift, ExceptT.mk, ExceptT.run, Functor.map, Except.map]
  | ok a => simp [ExceptT.lift, ExceptT.mk, ExceptT.run, Functor.map, Except.map]

theorem ensures_mapFailure {f : ε → ε'} {act : Attempt ε σ α} {fail : ε' → σ → Prop}
    {good : α → σ → Prop} : Ensures (mapFailure f act) s bad fail good ↔
      Ensures act s bad (fun e s' => fail (f e) s') good := by
  unfold Ensures mapFailure
  show Checked.Ensures (Except.mapError f <$> act.run) s bad _ ↔ _
  rw [Checked.ensures_map]
  apply iff_of_eq
  congr 1
  funext r s'
  cases r <;> rfl

theorem ensures_zoom {split : σ → τ × ρ} {join : τ → ρ → σ} {act : Attempt ε τ α}
    {good : α → σ → Prop} : Ensures (zoom split join act) s bad fail good ↔
      Ensures act (split s).1 bad (fun e t => fail e (join t (split s).2))
        fun a t => good a (join t (split s).2) := by
  unfold Ensures zoom
  rw [ExceptT.run_mk, Checked.ensures_zoom]

theorem ensures_foldlM {f : β → α → Attempt ε σ β} {xs : List α} {b : β}
    (inv : List α → β → σ → Prop) (start : inv xs b s)
    (step : ∀ x rest b s, inv (x :: rest) b s →
      Ensures (f b x) s bad fail fun b s' => inv rest b s') :
    Ensures (xs.foldlM f b) s bad fail fun b s' => inv [] b s' := by
  induction xs generalizing b s with
  | nil => simpa using start
  | cons x xs ih =>
    rw [List.foldlM_cons, ensures_bind]
    exact (step x xs b s start).mono fun b s' h => ih h

end Attempt

end ProgramAnalysis
