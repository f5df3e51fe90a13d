import ProgramAnalysis.Proofs.Diagram.Operations

/-! If-then-else and the connectives that are made from it. The standard form of a triple and the
split at the first variable keep the meaning of the triple; what the recursion makes of the two parts
comes after that variable because it does not depend on any variable up to it. -/
namespace ProgramAnalysis

namespace Diagram

open Checked (Ensures)

variable {d e e' : Diagram} {f g h r : Ref} {n : Node} {v : Valuation}

theorem Ordered.eval_complementIf (ordered : d.Ordered) (has : d.Has r) (flag : Bool)
    (v : Valuation) : d.eval v (r.complementIf flag) = (d.eval v r != flag) := by
  cases flag with
  | false => simp [Ref.complementIf]
  | true => simp [Ref.complementIf, ordered.eval_neg v r has.1]

/-- The truth value of `g` where `f` holds and of `h` elsewhere. -/
def select (d : Diagram) (v : Valuation) (f g h : Ref) : Bool :=
  if d.eval v f then d.eval v g else d.eval v h

theorem Ordered.eval_constant? (ordered : d.Ordered) (hasF : d.Has f) (hasG : d.Has g)
    (found : IteForm.constant? f g h = some r) :
    d.Has r ∧ ∀ v, d.eval v r = d.select v f g h := by
  unfold IteForm.constant? at found
  split at found
  · rename_i same
    cases found
    subst same
    exact ⟨hasG, fun v => by simp [select]⟩
  split at found
  · rename_i same
    cases found
    obtain ⟨rfl, rfl⟩ := same
    exact ⟨hasF, fun v => by cases hv : d.eval v f <;> simp [select, hv]⟩
  split at found
  · rename_i same
    cases found
    obtain ⟨rfl, rfl⟩ := same
    refine ⟨has_neg.mpr hasF, fun v => ?_⟩
    rw [ordered.eval_neg v f hasF.1]
    cases hv : d.eval v f <;> simp [select, hv]
  · cases found

theorem Ordered.eval_branch (ordered : d.Ordered) (hasF : d.Has f) (hasG : d.Has g)
    (value : Bool) {same opposite : Ref} (hasSame : d.Has same) (hasOpposite : d.Has opposite)
    (evalSame : ∀ v, d.eval v same = value) (evalOpposite : ∀ v, d.eval v opposite = !value) :
    d.Has (if g = f then same else if g = -f then opposite else g) ∧
      ∀ v, d.eval v f = value →
        d.eval v (if g = f then same else if g = -f then opposite else g) = d.eval v g := by
  split
  · rename_i repeated
    subst repeated
    exact ⟨hasSame, fun v hv => by rw [evalSame, hv]⟩
  split
  · rename_i repeated
    subst repeated
    exact ⟨hasOpposite, fun v hv => by rw [evalOpposite, ordered.eval_neg v f hasF.1, hv]⟩
  · exact ⟨hasG, fun _ _ => rfl⟩

theorem Ordered.select_neg_condition (ordered : d.Ordered) (hasF : d.Has f) (v : Valuation) :
    d.select v (-f) h g = d.select v f g h := by
  unfold select
  rw [ordered.eval_neg v f hasF.1]
  cases d.eval v f <;> rfl

theorem Ordered.select_neg_branches (ordered : d.Ordered) (hasG : d.Has g) (hasH : d.Has h)
    (v : Valuation) : d.select v f (-g) (-h) = !d.select v f g h := by
  unfold select
  rw [ordered.eval_neg v g hasG.1, ordered.eval_neg v h hasH.1]
  cases d.eval v f <;> rfl

/-- The form of a triple has the meaning of the triple. -/
def Means (d : Diagram) (f g h : Ref) : IteForm → Prop
  | .known r => d.Has r ∧ ∀ v, d.eval v r = d.select v f g h
  | .standard f' g' h' c => (d.Has f' ∧ d.Has g' ∧ d.Has h') ∧ d.level f' < bottomLevel ∧
      ∀ v, d.select v f g h = (d.select v f' g' h' != c)

theorem Ordered.means_ofTriple (ordered : d.Ordered) (hasF : d.Has f) (hasG : d.Has g)
    (hasH : d.Has h) : d.Means f g h (IteForm.ofTriple f g h) := by
  have thenBranch := ordered.eval_branch hasF hasG true d.has_one d.has_zero
    (by simp) (by simp)
  have elseBranch := ordered.eval_branch hasF hasH false d.has_zero d.has_one
    (by simp) (by simp)
  unfold IteForm.ofTriple
  split
  · rename_i one
    subst one
    exact ⟨hasG, fun v => by simp [select]⟩
  split
  · rename_i zero
    subst zero
    exact ⟨hasH, fun v => by simp [select]⟩
  split
  · rename_i found
    exact ordered.eval_constant? hasF hasG found
  dsimp only
  generalize (if g = f then Ref.one else if g = -f then Ref.zero else g) = g' at *
  generalize (if h = f then Ref.zero else if h = -f then Ref.one else h) = h' at *
  have same (v : Valuation) : d.select v f g' h' = d.select v f g h := by
    unfold select
    cases hv : d.eval v f with
    | false => exact elseBranch.2 v hv
    | true => exact thenBranch.2 v hv
  split
  · rename_i found
    obtain ⟨has, meaning⟩ := ordered.eval_constant? hasF thenBranch.1 found
    exact ⟨has, fun v => (meaning v).trans (same v)⟩
  have inner : d.level f < bottomLevel := by
    cases root : d.node? f with
    | none => rcases eq_constant_of_terminal hasF root with rfl | rfl <;> contradiction
    | some n => exact ordered.level_lt_bottom root
  split
  · split
    · refine ⟨⟨has_neg.mpr hasF, has_neg.mpr elseBranch.1, has_neg.mpr thenBranch.1⟩,
        by rwa [level_neg], fun v => ?_⟩
      rw [ordered.select_neg_branches elseBranch.1 thenBranch.1, ordered.select_neg_condition hasF,
        same]
      simp
    · refine ⟨⟨has_neg.mpr hasF, elseBranch.1, thenBranch.1⟩, by rwa [level_neg], fun v => ?_⟩
      rw [ordered.select_neg_condition hasF, same]
      simp
  · split
    · refine ⟨⟨hasF, has_neg.mpr thenBranch.1, has_neg.mpr elseBranch.1⟩, inner, fun v => ?_⟩
      rw [ordered.select_neg_branches thenBranch.1 elseBranch.1, same]
      simp
    · refine ⟨⟨hasF, thenBranch.1, elseBranch.1⟩, inner, fun v => ?_⟩
      rw [same]
      simp

/-! ### The split at the first variable -/

theorem level_ne_zero (d : Diagram) (r : Ref) : d.level r ≠ 0 := by
  cases inner : d.node? r with
  | none => simp [level, inner, bottomLevel]
  | some n =>
    rw [level_of_node? inner]
    exact (d.reduced _ _ (getElem?_of_node? inner)).var_ne_zero

theorem Valid.level_le_vars (valid : d.Valid) (inner : d.level r < bottomLevel) :
    d.level r ≤ d.vars := by
  cases root : d.node? r with
  | none => simp [level, root] at inner
  | some n =>
    rw [level_of_node? root]
    exact valid.var_le _ _ (getElem?_of_node? root)

/-- Both cofactors at a variable not after the root come after the variable, and the variable selects
between them. -/
structure Cofactors (d : Diagram) (x : Nat) (r : Ref) : Prop where
  has_low : d.Has (d.cofactors x r).1
  has_high : d.Has (d.cofactors x r).2
  below_low : x < d.level (d.cofactors x r).1
  below_high : x < d.level (d.cofactors x r).2
  eval : ∀ v, d.eval v r =
    if v x then d.eval v (d.cofactors x r).2 else d.eval v (d.cofactors x r).1

theorem Ordered.cofactors_spec (ordered : d.Ordered) (has : d.Has r) {x : Nat}
    (top : x ≤ d.level r) (inner : x < bottomLevel) : d.Cofactors x r := by
  by_cases below : x < d.level r
  · have whole : d.cofactors x r = (r, r) := if_pos below
    constructor <;> simp [whole, has, below]
  · have parts : d.cofactors x r = (d.low r, d.high r) := if_neg below
    cases root : d.node? r with
    | none =>
      have : d.level r = bottomLevel := by simp [level, root]
      omega
    | some n =>
      have here : n.var = x := by
        rw [level_of_node? root] at top below
        omega
      have low := ordered.level_lt_low root
      have high := ordered.level_lt_high root
      rw [level_of_node? root, here] at low high
      constructor
      · simpa [parts] using ordered.low_known has
      · simpa [parts] using ordered.high_known has
      · simpa [parts] using low
      · simpa [parts] using high
      · intro v
        rw [eval_of_node? root, here, parts]

/-- No variable up to `k` makes a difference to the function. -/
def IgnoresUpTo (k : Nat) (m : Valuation → Bool) : Prop :=
  ∀ x ≤ k, ∀ v b, m (Function.update v x b) = m v

theorem Ordered.ignoresUpTo (ordered : d.Ordered) {k : Nat} (below : k < d.level r) :
    IgnoresUpTo k fun v => d.eval v r :=
  fun _ le _ b => ordered.eval_update (Nat.lt_of_le_of_lt le below) b

theorem Ordered.ignoresUpTo_select (ordered : d.Ordered) {k : Nat} (belowF : k < d.level f)
    (belowG : k < d.level g) (belowH : k < d.level h) :
    IgnoresUpTo k fun v => d.select v f g h := by
  intro x le v b
  simp only [select, ordered.ignoresUpTo belowF x le, ordered.ignoresUpTo belowG x le,
    ordered.ignoresUpTo belowH x le]

theorem Ordered.lt_level_of_ignores (ordered : d.Ordered) (has : d.Has r) {k : Nat}
    (inner : k < bottomLevel) {m : Valuation → Bool} (ignores : IgnoresUpTo k m)
    (eval : ∀ v, d.eval v r = m v) : k < d.level r := by
  apply ordered.lt_level has inner
  intro x le v
  rw [eval, eval, ignores x le, ignores x le]

theorem Extends.select_eq (grown : e.Extends d) (ordered : d.Ordered) (hasF : d.Has f)
    (hasG : d.Has g) (hasH : d.Has h) (v : Valuation) : e.select v f g h = d.select v f g h := by
  simp only [select, grown.eval_eq ordered _ _ hasF, grown.eval_eq ordered _ _ hasG,
    grown.eval_eq ordered _ _ hasH]

/-- The result of an operation: a reference with the given meaning in a grown diagram. -/
structure Gives (d e : Diagram) (r : Ref) (meaning : Valuation → Bool) : Prop where
  grows : d.Grows e
  has : e.Has r
  eval : ∀ v, e.eval v r = meaning v

/-- Later there is still only one reference for that function. -/
theorem Gives.eq {d' e' : Diagram} {r' : Ref} {meaning : Valuation → Bool} (gives : d.Gives e r meaning)
    (again : d'.Gives e' r' meaning) (later : e.Grows d') : r' = r := by
  have grown := later.trans again.grows
  apply again.grows.valid.ordered.eq_of_eval again.has (grown.has gives.has)
  intro v
  rw [again.eval, grown.nodes.eval_valid gives.grows.valid gives.has, gives.eval]

theorem Gives.after {d' : Diagram} {meaning meaning' : Valuation → Bool} (gives : d'.Gives e r meaning)
    (first : d.Grows d') (same : ∀ v, meaning v = meaning' v) : d.Gives e r meaning' :=
  ⟨first.trans gives.grows, gives.has, fun v => (gives.eval v).trans (same v)⟩

theorem Gives.imp {meaning meaning' : Valuation → Bool} (gives : d.Gives e r meaning)
    (same : ∀ v, meaning v = meaning' v) : d.Gives e r meaning' :=
  ⟨gives.grows, gives.has, fun v => (gives.eval v).trans (same v)⟩

theorem Gives.complementIf {meaning : Valuation → Bool} (gives : d.Gives e r meaning) (flag : Bool) :
    d.Gives e (r.complementIf flag) fun v => meaning v != flag :=
  ⟨gives.grows, has_complementIf.mpr gives.has, fun v => by
    rw [gives.grows.valid.ordered.eval_complementIf gives.has, gives.eval]⟩

theorem select_eq_cofactors {x : Nat} (cf : d.Cofactors x f) (cg : d.Cofactors x g)
    (ch : d.Cofactors x h) (v : Valuation) : d.select v f g h =
      if v x then d.select v (d.cofactors x f).2 (d.cofactors x g).2 (d.cofactors x h).2
      else d.select v (d.cofactors x f).1 (d.cofactors x g).1 (d.cofactors x h).1 := by
  simp only [select, cf.eval, cg.eval, ch.eval]
  cases v x <;> rfl

/-- The first level of a triple is a variable in use, at which all three have cofactors. -/
structure Splits (d : Diagram) (f g h : Ref) : Prop where
  nonzero : d.topLevel f g h ≠ 0
  inner : d.topLevel f g h < bottomLevel
  inUse : d.topLevel f g h ≤ d.vars
  condition : d.Cofactors (d.topLevel f g h) f
  whereTrue : d.Cofactors (d.topLevel f g h) g
  whereFalse : d.Cofactors (d.topLevel f g h) h

theorem Valid.splits (valid : d.Valid) (hasF : d.Has f) (hasG : d.Has g) (hasH : d.Has h)
    (innerF : d.level f < bottomLevel) : d.Splits f g h := by
  have topF : d.topLevel f g h ≤ d.level f :=
    Nat.le_trans (Nat.min_le_left _ _) (Nat.min_le_left _ _)
  have topG : d.topLevel f g h ≤ d.level g :=
    Nat.le_trans (Nat.min_le_left _ _) (Nat.min_le_right _ _)
  have topH : d.topLevel f g h ≤ d.level h := Nat.min_le_right _ _
  have inner := Nat.lt_of_le_of_lt topF innerF
  have nonzero : d.topLevel f g h ≠ 0 := by
    have := d.level_ne_zero f
    have := d.level_ne_zero g
    have := d.level_ne_zero h
    unfold topLevel
    omega
  exact ⟨nonzero, inner, Nat.le_trans topF (valid.level_le_vars innerF),
    valid.ordered.cofactors_spec hasF topF inner, valid.ordered.cofactors_spec hasG topG inner,
    valid.ordered.cofactors_spec hasH topH inner⟩

/-- Two results that come after a variable are put together under it. -/
theorem mkNode_joins {d₁ d₂ : Diagram} {low high : Ref} {x : Nat} {m m₀ m₁ : Valuation → Bool}
    (nonzero : x ≠ 0) (inner : x < bottomLevel) (inUse : x ≤ d.vars) (first : d.Gives d₁ low m₀)
    (second : d₁.Gives d₂ high m₁) (ignores₀ : IgnoresUpTo x m₀) (ignores₁ : IgnoresUpTo x m₁)
    (joined : ∀ v, m v = if v x then m₁ v else m₀ v) :
    Ensures (mkNode x low high) d₂ (fun violation => violation = .nodesExhausted ∧ d₂.Full)
      fun r e => d.Gives e r m ∧ d₂.Builds (Cofactor m) e := by
  have valid := second.grows.valid
  have hasLow := second.grows.has first.has
  have evalLow (v : Valuation) : d₂.eval v low = m₀ v := by
    rw [second.grows.nodes.eval_valid first.grows.valid first.has, first.eval]
  have belowLow := valid.ordered.lt_level_of_ignores hasLow inner ignores₀ evalLow
  have belowHigh := valid.ordered.lt_level_of_ignores second.has inner ignores₁ second.eval
  apply (mkNode_ensures valid nonzero hasLow second.has belowLow belowHigh).mono
  intro r e made
  have eval (v : Valuation) : e.eval v r = m v := by
    rw [made.eval, evalLow, second.eval, joined]
  have grown := first.grows.trans second.grows
  have vars : e.vars = d.vars := by
    have := made.vars_le
    have := made.le_vars
    have := grown.vars
    omega
  exact ⟨⟨⟨made.valid, made.nodes.trans grown.nodes, vars⟩, made.has, eval⟩, made.builds eval⟩

theorem remember_gives {op : Operation} {m : Valuation → Bool} {S : (Valuation → Bool) → Prop}
    {bad : Violation → Prop} (gives : d.Gives e r m) (builds : d.Builds S e)
    (answers : e.Answers op r) :
    Ensures (remember op r) e bad fun _ e' => d.Gives e' r m ∧ d.Builds S e' := by
  apply (remember_ensures gives.grows.valid answers).mono
  rintro _ e' ⟨last, nodes⟩
  constructor
  · refine ⟨gives.grows.trans last, last.has gives.has, fun v => ?_⟩
    rw [last.nodes.eval_valid gives.grows.valid gives.has, gives.eval]
  · exact builds.trans (.of_size last.valid last.nodes (nodes ▸ Nat.le_refl _))

theorem cofactors_of_joined {x : Nat} {m m₀ m₁ : Valuation → Bool} (ignores₀ : IgnoresUpTo x m₀)
    (ignores₁ : IgnoresUpTo x m₁) (joined : ∀ v, m v = if v x then m₁ v else m₀ v) :
    Cofactor m m₀ ∧ Cofactor m m₁ := by
  have fixed (b : Bool) := Cofactor.fix x b (Cofactor.self (m := m))
  simp only [joined, Function.update_self, ignores₀ _ (Nat.le_refl _),
    ignores₁ _ (Nat.le_refl _)] at fixed
  exact ⟨fixed false, fixed true⟩

/-- The step of a recursion over nodes: the two cofactors of the result are made one after the other,
put together under a variable and handed on. -/
theorem join_builds {d : Diagram} {x : Nat} {m m₀ m₁ : Valuation → Bool}
    {S : (Valuation → Bool) → Prop} {makeLow makeHigh : DiagramM Ref} {next : Ref → DiagramM Ref}
    {good : Ref → Diagram → Prop} (nonzero : x ≠ 0) (inner : x < bottomLevel) (inUse : x ≤ d.vars)
    (ignores₀ : IgnoresUpTo x m₀) (ignores₁ : IgnoresUpTo x m₁)
    (joined : ∀ v, m v = if v x then m₁ v else m₀ v) (needs : ∀ k, Cofactor m k → S k)
    (first : (∀ k, Cofactor m₀ k → S k) →
      Ensures makeLow d (d.Exhausts S) fun r e => d.Gives e r m₀ ∧ d.Builds S e)
    (second : ∀ e, d.Grows e → (∀ k, Cofactor m₁ k → S k) →
      Ensures makeHigh e (e.Exhausts S) fun r e' => e.Gives e' r m₁ ∧ e.Builds S e')
    (rest : ∀ r e, d.Gives e r m → d.Builds S e → Ensures (next r) e (d.Exhausts S) good) :
    Ensures (do
      let low ← makeLow
      let high ← makeHigh
      let r ← mkNode x low high
      next r) d (d.Exhausts S) good := by
  obtain ⟨lowNeeds, highNeeds⟩ := cofactors_of_joined ignores₀ ignores₁ joined
  rw [Checked.ensures_bind]
  apply (first fun k of => needs k (lowNeeds.trans of)).mono
  rintro low d₁ ⟨givesLow, builds₁⟩
  rw [Checked.ensures_bind]
  apply (second d₁ givesLow.grows fun k of => needs k (highNeeds.trans of)).imp _
    fun _ exhausts => exhausts.after builds₁
  rintro high d₂ ⟨givesHigh, builds₂⟩
  have built := builds₁.trans builds₂
  rw [Checked.ensures_bind]
  apply (mkNode_joins nonzero inner inUse givesLow givesHigh ignores₀ ignores₁ joined).imp _
    fun _ full => ⟨full.1, d₂, built, full.2⟩
  rintro r d₃ ⟨gives, builds₃⟩
  exact rest r d₃ gives (built.trans (builds₃.mono needs))

/-- If-then-else makes the nodes of its result, as far as they are missing. -/
theorem ite_builds {d : Diagram} {f g h : Ref} {S : (Valuation → Bool) → Prop} (valid : d.Valid)
    (hasF : d.Has f) (hasG : d.Has g) (hasH : d.Has h)
    (needs : ∀ k, Cofactor (fun v => d.select v f g h) k → S k) :
    Ensures (ite f g h) d (d.Exhausts S) fun r e =>
      (d.Gives e r fun v => d.select v f g h) ∧ d.Builds S e := by
  have means := valid.ordered.means_ofTriple hasF hasG hasH
  rw [ite]
  split
  · rename_i r form
    rw [form] at means
    exact ⟨⟨.refl valid, means.1, means.2⟩, .of_size valid (.refl d) (Nat.le_refl _)⟩
  rename_i f' g' h' c form
  rw [form] at means
  obtain ⟨⟨hasF', hasG', hasH'⟩, innerF, meaning⟩ := means
  have weight := IteForm.weight_le form
  -- Whatever the standard form needs is needed, for it is the triple or its complement.
  have standard : Cofactor (fun v => d.select v f g h) fun v => d.select v f' g' h' := by
    have undone (v : Valuation) : d.select v f' g' h' = (d.select v f g h != c) := by
      rw [meaning]
      simp
    simpa only [undone] using Cofactor.bne c
  rw [Checked.ensures_bind]
  apply (remembered?_ensures valid _).mono
  rintro answer d₁ ⟨⟨grown, nodes⟩, known⟩
  have begun : d.Builds S d₁ := .of_size grown.valid grown.nodes (nodes ▸ Nat.le_refl _)
  split
  · rename_i answer r
    obtain ⟨⟨-, -, -, hasR⟩, eval⟩ := known r rfl
    have found : d.Gives d₁ r fun v => d.select v f' g' h' :=
      ⟨grown, hasR, fun v => (eval v).trans
        (grown.nodes.select_eq valid.ordered hasF' hasG' hasH' v)⟩
    exact ⟨(found.complementIf c).after (.refl valid) fun v => (meaning v).symm, begun⟩
  have valid₁ := grown.valid
  have has₁F := grown.has hasF'
  have has₁G := grown.has hasG'
  have has₁H := grown.has hasH'
  obtain ⟨nonzero, inner, inUse, cf, cg, ch⟩ :=
    valid₁.splits has₁F has₁G has₁H (by rwa [grown.nodes.level_eq hasF'])
  rw [Checked.ensures_bind, Checked.ensures_get, dif_neg (Nat.ne_of_lt inner)]
  have smaller := weight_split_lt (Nat.ne_of_lt inner)
  have same (v : Valuation) : d₁.select v f' g' h' = d.select v f' g' h' :=
    grown.nodes.select_eq valid.ordered hasF' hasG' hasH' v
  have needs₁ (k : Valuation → Bool) (of : Cofactor (fun v => d₁.select v f' g' h') k) : S k := by
    simp only [same] at of
    exact needs k (standard.trans of)
  have below := valid₁.ordered.ignoresUpTo_select cf.below_low cg.below_low ch.below_low
  have above := valid₁.ordered.ignoresUpTo_select cf.below_high cg.below_high ch.below_high
  apply (join_builds nonzero inner inUse below above (select_eq_cofactors cf cg ch) needs₁
    (ite_builds valid₁ cf.has_low cg.has_low ch.has_low) ?_ ?_).weaken
      fun _ exhausts => exhausts.after begun
  · intro d₂ grows needsHigh
    have partsHigh (v : Valuation) := grows.nodes.select_eq valid₁.ordered cf.has_high cg.has_high
      ch.has_high v
    simp only [← partsHigh] at needsHigh ⊢
    exact ite_builds grows.valid (grows.has cf.has_high) (grows.has cg.has_high)
      (grows.has ch.has_high) needsHigh
  · intro r d₂ made builds
    have entry : d₂.Answers (.ite f' g' h') r :=
      ⟨⟨made.grows.has has₁F, made.grows.has has₁G, made.grows.has has₁H, made.has⟩, fun v =>
        (made.eval v).trans (made.grows.nodes.select_eq valid₁.ordered has₁F has₁G has₁H v).symm⟩
    rw [Checked.ensures_bind]
    apply (remember_gives (made.after grown same) (begun.trans builds) entry).mono
    rintro _ d₃ ⟨gives, builds⟩
    exact ⟨(gives.complementIf c).after (.refl valid) fun v => (meaning v).symm, builds⟩
termination_by f.weight + g.weight + h.weight

/-- What a computation makes after others was made from the beginning. -/
theorem Builds.after {α : Type} {d₀ : Diagram} {S : (Valuation → Bool) → Prop} {act : DiagramM α}
    {good : α → Diagram → Prop} (begun : d₀.Builds S d)
    (rest : Ensures act d (d.Exhausts S) fun r e => good r e ∧ d.Builds S e) :
    Ensures act d (d₀.Exhausts S) fun r e => good r e ∧ d₀.Builds S e :=
  rest.imp (fun _ _ ⟨holds, builds⟩ => ⟨holds, begun.trans builds⟩) fun _ exhausts =>
    exhausts.after begun

/-! ### Connectives -/

namespace Builds

variable {d₀ : Diagram} {m : Valuation → Bool} {S : (Valuation → Bool) → Prop}

theorem ite (begun : d₀.Builds S d) (hasF : d.Has f) (hasG : d.Has g) (hasH : d.Has h)
    (same : ∀ v, d.select v f g h = m v) (needs : ∀ k, Cofactor m k → S k) :
    Ensures (ite f g h) d (d₀.Exhausts S) fun r e => d.Gives e r m ∧ d₀.Builds S e := by
  apply begun.after
  apply (ite_builds begun.valid hasF hasG hasH fun k of => needs k (by simpa only [same] using of)).mono
  rintro r e ⟨gives, builds⟩
  exact ⟨gives.imp same, builds⟩

theorem and (begun : d₀.Builds S d) (hasF : d.Has f) (hasG : d.Has g)
    (same : ∀ v, (d.eval v f && d.eval v g) = m v) (needs : ∀ k, Cofactor m k → S k) :
    Ensures (and f g) d (d₀.Exhausts S) fun r e => d.Gives e r m ∧ d₀.Builds S e := by
  apply begun.ite hasF hasG d.has_zero _ needs
  intro v
  rw [← same, select, eval_zero]
  cases d.eval v f <;> rfl

theorem or (begun : d₀.Builds S d) (hasF : d.Has f) (hasG : d.Has g)
    (same : ∀ v, (d.eval v f || d.eval v g) = m v) (needs : ∀ k, Cofactor m k → S k) :
    Ensures (or f g) d (d₀.Exhausts S) fun r e => d.Gives e r m ∧ d₀.Builds S e := by
  apply begun.ite hasF d.has_one hasG _ needs
  intro v
  rw [← same, select, eval_one]
  cases d.eval v f <;> rfl

theorem iff (begun : d₀.Builds S d) (hasF : d.Has f) (hasG : d.Has g)
    (same : ∀ v, (d.eval v f == d.eval v g) = m v) (needs : ∀ k, Cofactor m k → S k) :
    Ensures (iff f g) d (d₀.Exhausts S) fun r e => d.Gives e r m ∧ d₀.Builds S e := by
  apply begun.ite hasF hasG (has_neg.mpr hasG) _ needs
  intro v
  rw [← same, select, begun.valid.ordered.eval_neg v g hasG.1]
  cases d.eval v f <;> simp

/-- The answer is exact because the constant false is the only function that is never true. -/
theorem implies (begun : d₀.Builds S d) (hasF : d.Has f) (hasG : d.Has g)
    (same : ∀ v, (d.eval v f && !d.eval v g) = m v) (needs : ∀ k, Cofactor m k → S k) :
    Ensures (implies f g) d (d₀.Exhausts S) fun answer e =>
      (d.Grows e ∧ (answer = true ↔ ∀ v, d.eval v f = true → d.eval v g = true)) ∧
        d₀.Builds S e := by
  have negated (v : Valuation) : (d.eval v f && d.eval v (-g)) = m v := by
    rw [begun.valid.ordered.eval_neg v g hasG.1, same]
  unfold Diagram.implies
  rw [Checked.ensures_bind]
  apply (begun.and hasF (has_neg.mpr hasG) negated needs).mono
  rintro r e ⟨gives, builds⟩
  refine ⟨⟨gives.grows, ?_⟩, builds⟩
  have empty : r = .zero ↔ ∀ v, e.eval v r = false := by
    constructor
    · rintro rfl v
      exact eval_zero e v
    · intro never
      exact builds.valid.ordered.eq_of_eval gives.has e.has_zero fun v => by rw [never, eval_zero]
  simp only [gives.eval, ← same] at empty
  rw [decide_eq_true_eq, empty]
  apply forall_congr'
  intro v
  cases d.eval v f <;> cases d.eval v g <;> simp

end Builds

end Diagram

end ProgramAnalysis
