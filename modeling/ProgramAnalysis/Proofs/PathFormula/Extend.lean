import ProgramAnalysis.Proofs.PathFormula.Expressions

/-! Paths follow executions. A model of a path becomes a model of the path with one more edge when the
variables that the edge assigns get their new values at their new indices. Where the formula says all
that the edge does, its models are these only. -/
namespace ProgramAnalysis

variable {ops : Operators} {m m' : Assignment} {ssa ssa' : SsaMap} {s t : Store} {x : String}
  {v : Int} {L : Vocabulary}

/-- An expression that a formula can say, or of which nothing is to be said. -/
def Expr.Exact (e : Expr) : Prop := e.Expressible ∨ e.Open

/-- An action whose constants are 64-bit numbers and that leaves no result out. -/
structure Action.Encodable (a : Action) : Prop where
  fits : ∀ e ∈ a.expressions, e.Fits
  given : ∀ f, a ≠ .result f none

/-- An action that formulas say all of. -/
def Action.Exact (a : Action) : Prop := ∀ e ∈ a.expressions, e.Exact

/-! ### What an action makes of unbounded integers -/

/-- One variable gets a value that may be taken. -/
def Store.Assigns (x : String) (takes : Store → Int → Prop) (s t : Store) : Prop :=
  ∃ v, takes s v ∧ t = s.set x v

namespace Action

variable {f : String} {site : Point} {a : Expr} {truth : Bool}

theorem acts_skip_iff (s t : Store) : Action.skip.Acts (.unbounded ops) s t ↔ s = t := by
  constructor
  · intro acts
    cases acts with
    | skip => rfl
  · rintro rfl
    exact .skip

theorem acts_declare_iff (s t : Store) : (declare x none).Acts (.unbounded ops) s t ↔
    s.Assigns x (fun _ _ => True) t := by
  constructor
  · intro acts
    cases acts with
    | declare _ => exact ⟨_, trivial, rfl⟩
  · rintro ⟨v, -, rfl⟩
    exact .declare trivial

theorem acts_init_iff (s t : Store) : (declare x (some a)).Acts (.unbounded ops) s t ↔
    s.Assigns x (a.Evaluates (.unbounded ops)) t := by
  constructor
  · intro acts
    cases acts with
    | init value => exact ⟨_, value, rfl⟩
  · rintro ⟨v, value, rfl⟩
    exact .init value

theorem acts_assign_iff (s t : Store) : (assign (.var x) a).Acts (.unbounded ops) s t ↔
    s.Assigns x (a.Evaluates (.unbounded ops)) t := by
  constructor
  · intro acts
    cases acts with
    | assign value => exact ⟨_, value, rfl⟩
  · rintro ⟨v, value, rfl⟩
    exact .assign value

theorem acts_assume_iff (s t : Store) : (assume a truth).Acts (.unbounded ops) s t ↔
    t = s ∧ ∃ v, a.Evaluates (.unbounded ops) s v ∧ (v != 0) = truth := by
  constructor
  · intro acts
    cases acts with
    | assume value holds => exact ⟨rfl, _, value, holds⟩
  · rintro ⟨rfl, v, value, holds⟩
    exact .assume value holds

theorem acts_call_iff {args : List Expr} {params : List String}
    (arity : args.length = params.length) (s t : Store) :
    (call f args params site).Acts (.unbounded ops) s t ↔
      ∃ vs, List.Forall₂ (Expr.Evaluates (.unbounded ops) s) args vs ∧
        t = s.setAll (params.zip vs) := by
  constructor
  · intro acts
    cases acts with
    | call values _ => exact ⟨_, values, rfl⟩
  · rintro ⟨vs, values, rfl⟩
    exact .call values arity

theorem acts_ignore_iff (s t : Store) : (resume f site none).Acts (.unbounded ops) s t ↔ s = t := by
  constructor
  · intro acts
    cases acts with
    | ignore _ kept => rw [kept rfl, Store.set_self]
  · rintro rfl
    have step : (resume f site none).Acts (.unbounded ops) s _ := .ignore trivial fun _ => rfl
    rwa [Store.set_self] at step

theorem acts_receive_iff (s t : Store) :
    (resume f site (some (.var x))).Acts (.unbounded ops) s t ↔
      s.Assigns x (fun s v => v = s (resultVar f)) t := by
  constructor
  · intro acts
    cases acts with
    | receive _ kept => exact ⟨_, rfl, by rw [kept rfl, Store.set_set_value]⟩
  · rintro ⟨v, rfl, rfl⟩
    have step : (resume f site (some (.var x))).Acts (.unbounded ops) s _ :=
      .receive trivial fun _ => rfl
    rwa [Store.set_set_value] at step

theorem acts_result_iff (s t : Store) : (result f (some a)).Acts (.unbounded ops) s t ↔
    s.Assigns (resultVar f) (a.Evaluates (.unbounded ops)) t := by
  constructor
  · intro acts
    cases acts with
    | yield value => exact ⟨_, value, rfl⟩
  · rintro ⟨v, value, rfl⟩
    exact .yield value

end Action

namespace PathFormula

namespace Effect

variable {e e' : Effect} {R R' : Store → Store → Prop} {E : Prop} {value : Option Meaning}
  {takes : Store → Int → Prop}

/-- An effect speaks of no index that it has not reached. -/
structure WellFormed (L : Vocabulary) (ssa : SsaMap) (e : Effect) : Prop where
  le : ssa.Le e.ssa
  positive : e.ssa.Positive
  within : ∀ f ∈ e.constraints, f.Within (L.upTo e.ssa)

/-- Whenever a store may become another one, a model at the first becomes a model of the effect at the
second; and if nothing is left open, a model of the effect has a step between its stores. -/
structure Describes (ops : Operators) (L : Vocabulary) (ssa : SsaMap) (E : Prop) (e : Effect)
    (R : Store → Store → Prop) : Prop extends e.WellFormed L ssa where
  model : ∀ {m s t}, Assignment.At m ssa s → R s t → ∃ m', m.Prolongs ssa m' ∧ m'.At e.ssa t ∧
    ∀ f ∈ e.constraints, f.holds ops m' = true
  exact : E → ∀ m, (∀ f ∈ e.constraints, f.holds ops m = true) → R (m.store ssa) (m.store e.ssa)

theorem Describes.congr (described : e.Describes ops L ssa E R) (same : ∀ s t, R' s t ↔ R s t) :
    e.Describes ops L ssa E R' where
  toWellFormed := described.toWellFormed
  model reads related := described.model reads ((same _ _).mp related)
  exact all m holds := (same _ _).mpr (described.exact all m holds)

theorem Describes.imp {F : Prop} (described : e.Describes ops L ssa E R) (weaker : F → E) :
    e.Describes ops L ssa F R :=
  { described with exact := fun all => described.exact (weaker all) }

theorem describes_start (positive : ssa.Positive) :
    (⟨ssa, []⟩ : Effect).Describes ops L ssa E (· = ·) where
  le := .refl ssa
  positive := positive
  within f mem := (List.not_mem_nil mem).elim
  model := by
    rintro m s t reads rfl
    exact ⟨m, .refl ssa m, reads, fun f mem => (List.not_mem_nil mem).elim⟩
  exact _ m _ := rfl

/-- What is known of a value: it is the one that is taken, or nothing is known. -/
structure Means (ops : Operators) (L : Vocabulary) (ssa : SsaMap) (E : Prop) (value : Option Meaning)
    (takes : Store → Int → Prop) : Prop where
  within : ∀ μ, value = some μ → μ.Within (L.upTo ssa)
  taken : ∀ {m s v μ}, Assignment.At m ssa s → takes s v → value = some μ → μ.value ops m = v
  known : ∀ {m s μ}, Assignment.At m ssa s → value = some μ → takes s (μ.value ops m)
  unknown : E → value = none → ∀ s v, takes s v

theorem means_none : Means ops L ssa E none fun _ _ => True where
  within := nofun
  taken _ _ known := by cases known
  known _ known := by cases known
  unknown _ _ _ _ := trivial

theorem means_indexed (ops : Operators) (L : Vocabulary) (ssa : SsaMap) (E : Prop) (y : String) :
    Means ops L ssa E (some (.term (.indexed y (ssa.index y)))) fun s v => v = s y where
  within := by
    rintro μ ⟨⟩
    exact ⟨_, rfl, Nat.le_refl _⟩
  taken := by
    rintro m s v μ reads rfl ⟨⟩
    exact reads y
  known := by
    rintro m s μ reads ⟨⟩
    exact reads y
  unknown _ none := by cases none

theorem means_expr {a : Expr} (within : a.Within L) (bits : ∀ b, L.number (bit b)) :
    Means ops L ssa a.Exact (a.meaning? ssa) fun s v => a.Evaluates (.unbounded ops) s v where
  within μ known := Expr.meaning?_within within bits known
  taken reads value known := Expr.meaning?_value reads value known
  known reads known := Expr.meaning?_evaluates reads known
  unknown all none s v := by
    rcases all with said | free
    · obtain ⟨μ, known⟩ := said.exists_meaning ssa
      rw [known] at none
      cases none
    · exact free.evaluates s v

theorem Means.imp {F : Prop} (means : Means ops L ssa E value takes) (weaker : F → E) :
    Means ops L ssa F value takes :=
  { means with unknown := fun all => means.unknown (weaker all) }

/-- A condition is read in the store in which it is met. -/
theorem assume_describes (ops : Operators) {a : Expr} (truth : Bool) (within : a.Within L)
    (bits : ∀ b, L.number (bit b)) (positive : ssa.Positive) :
    (⟨ssa, ((a.condition? ssa).map fun f => if truth then f else f.negate).toList⟩ :
      Effect).Describes ops L ssa a.Exact fun s t =>
        t = s ∧ ∃ v, a.Evaluates (.unbounded ops) s v ∧ (v != 0) = truth := by
  have sided (m : Assignment) (f : Formula) : (if truth then f else f.negate).holds ops m = true ↔
      f.holds ops m = truth := by
    cases truth <;> simp
  constructor
  · refine ⟨.refl ssa, positive, fun f mem => ?_⟩
    obtain ⟨g, known, rfl⟩ := Option.map_eq_some_iff.mp (Option.mem_toList.mp mem)
    have inside := Expr.condition?_within within bits known
    split
    · exact inside
    · exact Formula.within_negate inside
  · rintro m s _ reads ⟨rfl, v, evaluates, holds⟩
    refine ⟨m, .refl ssa m, reads, fun f mem => ?_⟩
    obtain ⟨g, known, rfl⟩ := Option.map_eq_some_iff.mp (Option.mem_toList.mp mem)
    rw [sided, Expr.condition?_holds reads evaluates known]
    exact holds
  · intro all m holds
    refine ⟨rfl, ?_⟩
    cases known : a.condition? ssa with
    | none =>
      rcases all with said | free
      · obtain ⟨f, found⟩ := said.exists_condition ssa
        rw [known] at found
        cases found
      · exact ⟨bit truth, free.evaluates _ _, bit_ne_zero truth⟩
    | some f =>
      obtain ⟨v, evaluates, same⟩ : ∃ v, a.Evaluates (.unbounded ops) (m.store ssa) v ∧
          (v != 0) = f.holds ops m := Expr.condition?_evaluates (m.at_store ssa) known
      have side := holds (if truth then f else f.negate) (by simp [known])
      exact ⟨v, evaluates, same.trans ((sided m f).mp side)⟩

theorem assign_describes (described : e.Describes ops L ssa E R)
    (means : Means ops L ssa E value takes) (bits : ∀ b, L.number (bit b))
    (found : e.assign x value = .ok e') :
    e'.Describes ops L ssa E fun s t' => ∃ t v, R s t ∧ takes s v ∧ t' = t.set x v := by
  obtain ⟨i, next, found⟩ := Outcome.exists_of_bind found
  obtain ⟨ssa', set, found⟩ := Outcome.exists_of_bind found
  cases found
  obtain rfl := SsaMap.of_nextIndex next
  have later : e.ssa.index x < e.ssa.index x + 1 := Nat.lt_succ_self _
  have grown : e.ssa.Le ssa' := by
    intro y
    rw [SsaMap.index_of_set set]
    split
    · rename_i same
      exact same ▸ later.le
    · exact Nat.le_refl _
  constructor
  · constructor
    · exact described.le.trans grown
    · exact fun y => Nat.le_trans (described.positive y) (grown y)
    · intro f mem
      rcases List.mem_append.mp mem with mem | mem
      · exact (described.within f mem).mono grown.widens
      · obtain ⟨μ, known, rfl⟩ := Option.map_eq_some_iff.mp (Option.mem_toList.mp mem)
        refine Meaning.within_equation ⟨_, rfl, ?_⟩
          ((means.within μ known).mono (described.le.trans grown).widens) (bits true) (bits false)
        rw [SsaMap.index_of_set set, if_pos rfl]
  · rintro m s _ reads ⟨t, v, related, taken, rfl⟩
    obtain ⟨m', prolongs, reads', holds⟩ := described.model reads related
    -- No constraint speaks of the new index, so its value can be chosen.
    have kept : m'.Prolongs e.ssa (m'.set x (e.ssa.index x + 1) v) :=
      ⟨Assignment.agrees_set later, rfl⟩
    have whole := prolongs.trans described.le kept
    refine ⟨m'.set x (e.ssa.index x + 1) v, whole, reads'.set set, fun f mem => ?_⟩
    rcases List.mem_append.mp mem with mem | mem
    · exact (kept.holds (described.within f mem)).symm.trans (holds f mem)
    · obtain ⟨μ, known, rfl⟩ := Option.map_eq_some_iff.mp (Option.mem_toList.mp mem)
      have same : μ.value ops m = μ.value ops (m'.set x (e.ssa.index x + 1) v) :=
        Meaning.value_congr (means.within μ known) whole
      rw [Meaning.holds_equation, ← same, means.taken reads taken known]
      exact if_pos rfl
  · intro all m holds
    -- The value that was taken is the one at the new index.
    have before := described.exact all m fun f mem => holds f (List.mem_append_left _ mem)
    refine ⟨_, m.number ⟨x, some (e.ssa.index x + 1)⟩, before, ?_, ?_⟩
    · cases known : value with
      | none => exact means.unknown all known _ _
      | some μ =>
        have equation := holds (μ.equation (.indexed x (e.ssa.index x + 1)))
          (List.mem_append_right _ (by simp [known]))
        rw [Meaning.holds_equation] at equation
        have taken := means.known (m.at_store ssa) known
        rw [← equation] at taken
        exact taken
    · funext y
      by_cases same : y = x
      · simp [Assignment.store, SsaMap.index_of_set set, same]
      · simp [Assignment.store, SsaMap.index_of_set set, same, Store.set_other]

theorem single_describes (positive : ssa.Positive) (means : Means ops L ssa E value takes)
    (bits : ∀ b, L.number (bit b)) (acts : ∀ s t, R s t ↔ s.Assigns x takes t) :
    Outcome.Yields (ExceptT.lift (({ ssa } : Effect).assign x value) : Outcome Unrecognized Effect)
      fun e => e.Describes ops L ssa E R := by
  rw [Outcome.yields_lift]
  intro e found
  have described : e.Describes ops L ssa E fun s t' => ∃ t v, s = t ∧ takes s v ∧ t' = t.set x v :=
    assign_describes (describes_start positive) means bits found
  refine described.congr fun s t => (acts s t).trans ⟨?_, ?_⟩
  · rintro ⟨v, taken, rfl⟩
    exact ⟨s, v, rfl, taken, rfl⟩
  · rintro ⟨_, v, rfl, taken, rfl⟩
    exact ⟨v, taken, rfl⟩

theorem bind_describes {bs : List (String × Expr)} (described : e.Describes ops L ssa E R)
    (means : ∀ b ∈ bs, Means ops L ssa E (b.2.meaning? ssa) fun s v =>
      b.2.Evaluates (.unbounded ops) s v)
    (bits : ∀ b, L.number (bit b))
    (found : e.bind (bs.map fun b => (b.1, b.2.meaning? ssa)) = .ok e') :
    e'.Describes ops L ssa E fun s t' => ∃ t vs, R s t ∧
      List.Forall₂ (Expr.Evaluates (.unbounded ops) s) (bs.map (·.2)) vs ∧
        t' = t.setAll ((bs.map (·.1)).zip vs) := by
  induction bs generalizing e R with
  | nil =>
    cases found
    refine described.congr fun s t' => ⟨?_, fun related => ⟨t', [], related, .nil, rfl⟩⟩
    rintro ⟨t, vs, related, each, rfl⟩
    cases each
    exact related
  | cons b bs ih =>
    obtain ⟨here, rest⟩ := List.forall_mem_cons.mp means
    obtain ⟨e₁, first, found⟩ := Outcome.exists_of_bind found
    refine (ih (assign_describes described here bits first) rest found).congr fun s t' => ?_
    constructor
    · rintro ⟨t, vs, related, each, rfl⟩
      cases each with
      | cons value others => exact ⟨_, _, ⟨t, _, related, value, rfl⟩, others, rfl⟩
    · rintro ⟨_, vs, ⟨t, v, related, value, rfl⟩, others, rfl⟩
      exact ⟨t, v :: vs, related, .cons value others, rfl⟩

/-- A call takes the values of all arguments before it sets the first parameter. -/
theorem call_describes {f : String} {args : List Expr} {params : List String} {site : Point}
    (positive : ssa.Positive) (arity : args.length = params.length)
    (means : ∀ b ∈ params.zip args, Means ops L ssa E (b.2.meaning? ssa) fun s v =>
      b.2.Evaluates (.unbounded ops) s v)
    (bits : ∀ b, L.number (bit b)) :
    Outcome.Yields (ExceptT.lift (({ ssa } : Effect).bind
      (params.zip (args.map (·.meaning? ssa)))) : Outcome Unrecognized Effect) fun e =>
        e.Describes ops L ssa E ((Action.call f args params site).Acts (.unbounded ops)) := by
  rw [Outcome.yields_lift]
  intro e found
  have values : params.zip (args.map (·.meaning? ssa)) =
      (params.zip args).map fun b => (b.1, b.2.meaning? ssa) := List.zip_map_right ..
  rw [values] at found
  refine (bind_describes (describes_start positive) means bits found).congr fun s t => ?_
  rw [List.map_snd_zip (Nat.le_of_eq arity), List.map_fst_zip (Nat.le_of_eq arity.symm),
    Action.acts_call_iff arity]
  constructor
  · rintro ⟨vs, values, same⟩
    exact ⟨s, vs, rfl, values, same⟩
  · rintro ⟨_, vs, rfl, values, same⟩
    exact ⟨vs, values, same⟩

end Effect

variable {action : Action}

theorem effect_describes (within : ∀ e ∈ action.expressions, e.Within L)
    (bits : ∀ b, L.number (bit b)) (given : ∀ f, action ≠ .result f none)
    (positive : ssa.Positive) :
    Outcome.Yields (effect ssa action) fun e =>
      e.Describes ops L ssa action.Exact (action.Acts (.unbounded ops)) := by
  have start : Effect.Describes ops L ssa action.Exact { ssa } (· = ·) :=
    Effect.describes_start positive
  have means : ∀ a ∈ action.expressions, Effect.Means ops L ssa action.Exact (a.meaning? ssa)
      fun s v => a.Evaluates (.unbounded ops) s v :=
    fun a mem => (Effect.means_expr (within a mem) bits).imp fun all => all a mem
  cases action with
  | skip =>
    rw [effect, Outcome.yields_pure]
    exact start.congr Action.acts_skip_iff
  | declare x init =>
    cases init with
    | none => exact Effect.single_describes positive Effect.means_none bits Action.acts_declare_iff
    | some value =>
      have known := means value (by simp [Action.expressions])
      exact Effect.single_describes positive known bits Action.acts_init_iff
  | assign target value =>
    cases target with
    | var x =>
      have known := means value (by simp [Action.expressions])
      exact Effect.single_describes positive known bits Action.acts_assign_iff
    | _ => exact Outcome.yields_throw
  | assume condition truth =>
    rw [effect, Outcome.yields_pure]
    have here : condition ∈ (Action.assume condition truth).expressions := by
      simp [Action.expressions]
    have described := Effect.assume_describes ops truth (within _ here) bits positive
    exact (described.imp fun all => all _ here).congr Action.acts_assume_iff
  | call f args params site =>
    rw [effect]
    split
    · rename_i arity
      exact Effect.call_describes positive arity
        (fun b mem => means b.2 (List.of_mem_zip mem).2) bits
    · exact Outcome.yields_throw
  | resume f site target =>
    cases target with
    | none =>
      rw [effect, Outcome.yields_pure]
      exact start.congr Action.acts_ignore_iff
    | some target =>
      cases target with
      | var x =>
        exact Effect.single_describes positive (Effect.means_indexed ops L ssa _ _) bits
          Action.acts_receive_iff
      | _ => exact Outcome.yields_throw
  | result f value =>
    cases value with
    | none => exact (given f rfl).elim
    | some value =>
      have known := means value (by simp [Action.expressions])
      exact Effect.single_describes positive known bits Action.acts_result_iff

/-- The variables of a path all have an index that it has reached; the rest is in the vocabulary. -/
structure Indexed (L : Vocabulary) (p : PathFormula) : Prop where
  positive : p.ssa.Positive
  within : p.formula.Within (L.upTo p.ssa)

theorem indexed_empty : empty.Indexed L := ⟨SsaMap.positive_empty, trivial⟩

theorem Indexed.restart {p : PathFormula} (indexed : p.Indexed L) : p.restart.Indexed L :=
  ⟨indexed.positive, trivial⟩

/-- A path speaks of no index that it has not reached. -/
structure WellFormed (p : PathFormula) : Prop where
  positive : p.ssa.Positive
  within : p.formula.Within p.ssa.upTo

theorem WellFormed.indexed {p : PathFormula} (wellFormed : p.WellFormed) : p.Indexed .arithmetic :=
  ⟨wellFormed.positive, wellFormed.within⟩

theorem Indexed.wellFormed {p : PathFormula} (indexed : p.Indexed .arithmetic) : p.WellFormed :=
  ⟨indexed.positive, indexed.within⟩

theorem wellFormed_empty : empty.WellFormed := indexed_empty.wellFormed

theorem WellFormed.restart {p : PathFormula} (wellFormed : p.WellFormed) : p.restart.WellFormed :=
  wellFormed.indexed.restart.wellFormed

/-- A path with one more edge. Every step from a store of the path is in it, and if nothing of the edge
is left open, nothing else. -/
structure Strongest (ops : Operators) (L : Vocabulary) (p : PathFormula) (action : Action)
    (q : PathFormula) : Prop where
  indexed : q.Indexed L
  le : p.ssa.Le q.ssa
  model : ∀ {m s t}, Assignment.At m p.ssa s → p.formula.holds ops m = true →
    action.Acts (.unbounded ops) s t → ∃ m', m.Prolongs p.ssa m' ∧ m'.At q.ssa t ∧
      q.formula.holds ops m' = true
  before : ∀ m, q.formula.holds ops m = true → p.formula.holds ops m = true
  exact : action.Exact → ∀ m, q.formula.holds ops m = true →
    action.Acts (.unbounded ops) (m.store p.ssa) (m.store q.ssa)

theorem extend_yields {p : PathFormula} {edge : Edge} {good : PathFormula → Prop}
    (step : Outcome.Yields (effect p.ssa edge.action) fun e =>
      good ⟨.conj (p.formula :: e.constraints), e.ssa, p.length + 1⟩) :
    Outcome.Yields (p.extend edge) good := by
  rw [extend, Outcome.yields_bind, Outcome.yields_adapt]
  refine step.mono fun e continued => ?_
  split
  · rw [Outcome.yields_pure]
    exact continued
  · rw [Outcome.yields_lift]
    intro q failed
    cases failed

theorem extend_strongest {p : PathFormula} {edge : Edge}
    (within : ∀ e ∈ edge.action.expressions, e.Within L) (bits : ∀ b, L.number (bit b))
    (given : ∀ f, edge.action ≠ .result f none) (indexed : p.Indexed L) :
    Outcome.Yields (p.extend edge) fun q => Strongest ops L p edge.action q := by
  apply extend_yields
  have described : Outcome.Yields (effect p.ssa edge.action) fun e =>
      e.Describes ops L p.ssa edge.action.Exact (edge.action.Acts (.unbounded ops)) :=
    effect_describes within bits given indexed.positive
  refine described.mono fun e described => ?_
  have conj (m : Assignment) : (Formula.conj (p.formula :: e.constraints)).holds ops m = true ↔
      p.formula.holds ops m = true ∧ ∀ f ∈ e.constraints, f.holds ops m = true := by
    rw [Formula.holds_conj, List.forall_mem_cons]
  constructor
  · refine ⟨described.positive, Formula.within_join (List.forall_mem_cons.mpr ?_)⟩
    exact ⟨indexed.within.mono described.le.widens, described.within⟩
  · exact described.le
  · intro m s t reads holds acts
    obtain ⟨m', prolongs, reads', constraints⟩ := described.model reads acts
    refine ⟨m', prolongs, reads', (conj m').mpr ⟨?_, constraints⟩⟩
    exact (prolongs.holds indexed.within).symm.trans holds
  · exact fun m holds => ((conj m).mp holds).1
  · exact fun all m holds => described.exact all m ((conj m).mp holds).2

/-- A path with one more edge that machine numbers are enough for. -/
structure Extends (ops : Operators) (p : PathFormula) (action : Action) (q : PathFormula) :
    Prop where
  wellFormed : q.WellFormed
  le : p.ssa.Le q.ssa
  model : ∀ {m s t}, Assignment.At m p.ssa s → p.formula.holds ops m = true →
    action.Acts (.unbounded ops) s t → ∃ m', Assignment.Agrees p.ssa m m' ∧ m'.At q.ssa t ∧
      q.formula.holds ops m' = true

theorem extend_sound {p : PathFormula} {edge : Edge} (encodable : edge.action.Encodable)
    (wellFormed : p.WellFormed) :
    Outcome.Yields (p.extend edge) fun q => Extends ops p edge.action q := by
  have strongest : Outcome.Yields (p.extend edge) fun q =>
      Strongest ops .arithmetic p edge.action q :=
    extend_strongest (fun e mem => (encodable.fits e mem).within) (fun b => by cases b <;> rfl)
      encodable.given wellFormed.indexed
  refine strongest.mono fun q strongest => ⟨strongest.indexed.wellFormed, strongest.le, ?_⟩
  intro m s t reads holds acts
  obtain ⟨m', prolongs, rest⟩ := strongest.model reads holds acts
  exact ⟨m', prolongs.agrees, rest⟩

end PathFormula

end ProgramAnalysis
