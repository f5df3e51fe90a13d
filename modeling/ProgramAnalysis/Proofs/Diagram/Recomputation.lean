import ProgramAnalysis.Diagram.Quantify
import ProgramAnalysis.Proofs.Diagram.Operations

/-! Recomputation. Without the computed table an operation walks down its operands every time. It adds
the nodes that are missing on the way, so doing it again, there or in any later diagram, gives the same
reference and adds nothing. A table is right if every entry is what recomputation gives. With a right
table the operations do what they do without a table, because a hit only skips steps that add nothing. -/
namespace ProgramAnalysis

def IteForm.All (P : Ref → Prop) : IteForm → Prop
  | .known r => P r
  | .standard f g h _ => P f ∧ P g ∧ P h

namespace Diagram

open Checked (Ensures)

variable {d e e' : Diagram} {f g h r : Ref} {n : Node} {α β : Type}

/-- The diagram with an empty table of one slot. -/
def forget (d : Diagram) : Diagram := { d with computed := .empty 0 (Nat.zero_le 31) }

def freshIte (f g h : Ref) : DiagramM Ref :=
  match _form : IteForm.ofTriple f g h with
  | .known r => pure r
  | .standard f' g' h' complemented => do
    let d ← get
    if _inner : d.topLevel f' g' h' = bottomLevel then throw .illFormed
    else
      let v := d.topLevel f' g' h'
      let fs := d.cofactors v f'
      let gs := d.cofactors v g'
      let hs := d.cofactors v h'
      let e ← freshIte fs.1 gs.1 hs.1
      let t ← freshIte fs.2 gs.2 hs.2
      let r ← mkNode v e t
      return r.complementIf complemented
termination_by f.weight + g.weight + h.weight
decreasing_by
  · have := IteForm.weight_le _form
    have := (weight_split_lt _inner).1
    omega
  · have := IteForm.weight_le _form
    have := (weight_split_lt _inner).2
    omega

/-- The split of a standard triple at its first level in `d`. -/
def splitAt (d : Diagram) (f g h : Ref) : DiagramM Ref :=
  if d.topLevel f g h = bottomLevel then throw .illFormed
  else do
    let v := d.topLevel f g h
    let e ← freshIte (d.cofactors v f).1 (d.cofactors v g).1 (d.cofactors v h).1
    let t ← freshIte (d.cofactors v f).2 (d.cofactors v g).2 (d.cofactors v h).2
    mkNode v e t

def freshExists (f : Ref) (v : Nat) : DiagramM Ref := do
  if v = 0 then throw .zeroVariable
  else
    let d ← get
    if v < d.level f then return f
    else if d.level f = v then freshIte (d.low f) .one (d.high f)
    else
      if _inner : d.node? f = none then throw .illFormed
      else
        let low ← freshExists (d.low f) v
        let high ← freshExists (d.high f) v
        mkNode (d.level f) low high
termination_by f.weight
decreasing_by
  · obtain ⟨n, inner⟩ := Option.ne_none_iff_exists'.mp _inner
    exact (weight_lt_of_node? inner).1
  · obtain ⟨n, inner⟩ := Option.ne_none_iff_exists'.mp _inner
    exact (weight_lt_of_node? inner).2

/-- The quantification of a variable under a root as it is in `d`. -/
def existsAt (d : Diagram) (f : Ref) (v : Nat) : DiagramM Ref :=
  if v < d.level f then return f
  else if d.level f = v then freshIte (d.low f) .one (d.high f)
  else if d.node? f = none then throw .illFormed
  else do
    let low ← freshExists (d.low f) v
    let high ← freshExists (d.high f) v
    mkNode (d.level f) low high

/-- What a remembered result is the result of. The triple of a key is a standard one. -/
def recompute : Operation → DiagramM Ref
  | .ite f g h => do (← get).splitAt f g h
  | .exists f v => freshExists f v

/-- Every remembered result is what recomputation gives, now and in every later diagram. -/
def Settled (d : Diagram) : Prop :=
  ∀ op r, d.computed.find? op = some r → ∀ e, e.Extends d → recompute op e = .ok (r, e)

/-! ### Known references -/

/-- A reference that is not ahead of the nodes of the diagram. -/
def Inside (d : Diagram) (r : Ref) : Prop := r.index < d.nodes.size + 2

theorem inside_neg : d.Inside (-r) ↔ d.Inside r := by simp [Inside]

theorem inside_complementIf {flag : Bool} : d.Inside (r.complementIf flag) ↔ d.Inside r := by
  simp [Inside]

theorem inside_of_index (small : r.index < 2) : d.Inside r := by
  unfold Inside
  omega

theorem Inside.later (inside : d.Inside r) (grown : e.Extends d) : e.Inside r := by
  have := grown.size_le
  unfold Inside at *
  omega

theorem Inside.low (inside : d.Inside r) : d.Inside (d.low r) := by
  cases inner : d.node? r with
  | none => simpa only [Diagram.low, inner] using inside
  | some n =>
    have := index_lt_of_node? inner
    simp only [Diagram.low, inner, inside_complementIf]
    unfold Inside at *
    omega

theorem Inside.high (inside : d.Inside r) : d.Inside (d.high r) := by
  cases inner : d.node? r with
  | none => simpa only [Diagram.high, inner] using inside
  | some n =>
    have := index_lt_of_node? inner
    simp only [Diagram.high, inner, inside_complementIf]
    unfold Inside at *
    omega

theorem Inside.cofactors (inside : d.Inside r) (v : Nat) :
    d.Inside (d.cofactors v r).1 ∧ d.Inside (d.cofactors v r).2 := by
  unfold Diagram.cofactors
  split
  · exact ⟨inside, inside⟩
  · exact ⟨inside.low, inside.high⟩

theorem Inside.node?_eq (inside : d.Inside r) (grown : e.Extends d) : e.node? r = d.node? r :=
  grown.node?_eq_of_lt inside

theorem Inside.level_eq (inside : d.Inside r) (grown : e.Extends d) : e.level r = d.level r := by
  simp only [level, inside.node?_eq grown]

theorem Inside.low_eq (inside : d.Inside r) (grown : e.Extends d) : e.low r = d.low r := by
  simp only [Diagram.low, inside.node?_eq grown]

theorem Inside.high_eq (inside : d.Inside r) (grown : e.Extends d) : e.high r = d.high r := by
  simp only [Diagram.high, inside.node?_eq grown]

theorem Inside.cofactors_eq (inside : d.Inside r) (grown : e.Extends d) (v : Nat) :
    e.cofactors v r = d.cofactors v r := by
  simp only [Diagram.cofactors, inside.level_eq grown, inside.low_eq grown, inside.high_eq grown]

theorem ofTriple_all {P : Ref → Prop} (neg : ∀ r, P r → P (-r)) (one : P .one) (ofF : P f)
    (ofG : P g) (ofH : P h) : (IteForm.ofTriple f g h).All P := by
  have zero : P .zero := neg _ one
  have constant (g h : Ref) (ofG : P g) : ∀ r, IteForm.constant? f g h = some r → P r := by
    intro r found
    unfold IteForm.constant? at found
    split at found
    · exact Option.some.inj found ▸ ofG
    split at found
    · exact Option.some.inj found ▸ ofF
    split at found
    · exact Option.some.inj found ▸ neg f ofF
    · cases found
  have branch (k : Ref) (a b : Ref) (ofK : P k) (ofA : P a) (ofB : P b) :
      P (if k = f then a else if k = -f then b else k) := by
    split
    · exact ofA
    split
    · exact ofB
    · exact ofK
  have ofG' := branch g .one .zero ofG one zero
  have ofH' := branch h .zero .one ofH zero one
  unfold IteForm.ofTriple
  split
  · exact ofG
  split
  · exact ofH
  split
  · exact constant g h ofG _ (by assumption)
  dsimp only
  generalize (if g = f then Ref.one else if g = -f then Ref.zero else g) = g' at *
  generalize (if h = f then Ref.zero else if h = -f then Ref.one else h) = h' at *
  split
  · exact constant g' h' ofG' _ (by assumption)
  by_cases sign : f.isNegated
  · simp only [sign, if_true]
    split
    · exact ⟨neg f ofF, neg h' ofH', neg g' ofG'⟩
    · exact ⟨neg f ofF, ofH', ofG'⟩
  · simp only [sign, Bool.false_eq_true, if_false]
    split
    · exact ⟨ofF, neg g' ofG', neg h' ofH'⟩
    · exact ⟨ofF, ofG', ofH'⟩

/-! ### Doing it again -/

/-- The computation only adds nodes, and doing it again in any later diagram adds none. -/
def Settles (act : DiagramM Ref) (d : Diagram) : Prop :=
  Ensures act d (fun _ => True) fun r e =>
    e.Extends d ∧ e.Inside r ∧ ∀ e', e'.Extends e → act e' = .ok (r, e')

theorem settles_pure (inside : d.Inside r) : Settles (pure r) d :=
  ⟨.refl d, inside, fun _ _ => rfl⟩

theorem settles_throw {v : Violation} : Settles (throw v) d := trivial

theorem Settles.bind {act : DiagramM Ref} {next : Ref → DiagramM Ref} (first : Settles act d)
    (then_ : ∀ r e, e.Extends d → e.Inside r → Settles (next r) e) : Settles (act >>= next) d := by
  unfold Settles
  rw [Checked.ensures_bind]
  apply first.mono
  rintro r e ⟨grown, inside, again⟩
  apply (then_ r e grown inside).mono
  rintro s e₁ ⟨grown₁, inside₁, again₁⟩
  refine ⟨grown₁.trans grown, inside₁, fun e' later => ?_⟩
  have repeated : (act >>= next) e' = next r e' := by
    simp [Bind.bind, StateT.bind, Except.bind, again e' (later.trans grown₁)]
  rw [repeated, again₁ e' later]

/-- Only the diagram at hand and its later ones matter. -/
theorem Settles.congr {act act' : DiagramM Ref} (settles : Settles act' d)
    (same : ∀ e, e.Extends d → act e = act' e) : Settles act d := by
  unfold Settles Ensures at *
  rw [same d (.refl d)]
  split at settles
  · obtain ⟨grown, inside, again⟩ := settles
    exact ⟨grown, inside, fun e' later => (same e' (later.trans grown)).trans (again e' later)⟩
  · trivial

theorem Settles.complementIf {act : DiagramM Ref} (settles : Settles act d) (flag : Bool) :
    Settles (do return (← act).complementIf flag) d :=
  settles.bind fun _ _ _ inside => settles_pure (inside_complementIf.mpr inside)

theorem place_settles (reduced : n.Reduced) : Settles (place n reduced) d := by
  apply Checked.ensures_of_forall
  · intro r e run
    have placed : ∃ i, r = .node (i + 2) ∧ e.nodes[i]? = some n ∧ e.Extends d := by
      unfold place at run
      split at run
      · rename_i i known
        cases run
        exact ⟨i, rfl, (d.unique_iff n i).mp known, .refl d⟩
      split at run
      · split at run
        · cases run
          exact ⟨d.nodes.size, rfl, Array.getElem?_push_size, extends_of_push rfl⟩
        · cases run
      · cases run
    obtain ⟨i, rfl, here, grown⟩ := placed
    have bound := (Array.getElem?_eq_some_iff.mp here).1
    refine ⟨grown, ?_, fun e' later => place_of_mem reduced (later i n here)⟩
    simp only [Inside, Ref.index_node]
    omega
  · intro v run
    trivial

theorem mkNode_settles {v : Nat} {low high : Ref} (inside : d.Inside low) :
    Settles (mkNode v low high) d := by
  unfold mkNode
  split
  · exact settles_throw
  split
  · exact settles_pure inside
  split
  · split
    · exact settles_throw
    · exact (place_settles _).bind fun _ _ _ inside => settles_pure (inside_neg.mpr inside)
  · exact place_settles _

/-- A computation may look at what stays the same in all later diagrams. -/
theorem settles_get {next : Diagram → DiagramM Ref} (settles : Settles (next d) d)
    (same : ∀ e, e.Extends d → next e e = next d e) : Settles (get >>= next) d :=
  settles.congr same

theorem freshIte_eq (f g h : Ref) : freshIte f g h =
    match IteForm.ofTriple f g h with
    | .known r => pure r
    | .standard f' g' h' c => do return (← recompute (.ite f' g' h')).complementIf c := by
  rw [freshIte]
  split
  · rename_i form
    rw [form]
  · rename_i form
    rw [form]
    simp only [recompute, splitAt, bind_assoc]
    apply congrArg (get >>= ·)
    funext d
    split
    · rfl
    · simp only [bind_assoc]

theorem splitAt_settles (insideF : d.Inside f) (insideG : d.Inside g) (insideH : d.Inside h)
    (halves : d.topLevel f g h ≠ bottomLevel → ∀ e, e.Extends d →
      Settles (freshIte (d.cofactors (d.topLevel f g h) f).1 (d.cofactors (d.topLevel f g h) g).1
        (d.cofactors (d.topLevel f g h) h).1) e ∧
      Settles (freshIte (d.cofactors (d.topLevel f g h) f).2 (d.cofactors (d.topLevel f g h) g).2
        (d.cofactors (d.topLevel f g h) h).2) e) :
    Settles (recompute (.ite f g h)) d := by
  apply settles_get
  · unfold splitAt
    split
    · exact settles_throw
    · rename_i inner
      apply (halves inner d (.refl d)).1.bind
      intro e d₁ grown inside
      apply (halves inner d₁ grown).2.bind
      intro t d₂ grown₂ _
      exact mkNode_settles (inside.later grown₂)
  · intro e grown
    have top : e.topLevel f g h = d.topLevel f g h := by
      simp only [topLevel, insideF.level_eq grown, insideG.level_eq grown, insideH.level_eq grown]
    simp only [splitAt, top, insideF.cofactors_eq grown, insideG.cofactors_eq grown,
      insideH.cofactors_eq grown]

theorem freshIte_settles {d : Diagram} {f g h : Ref} (insideF : d.Inside f) (insideG : d.Inside g)
    (insideH : d.Inside h) : Settles (freshIte f g h) d := by
  have form := ofTriple_all (P := d.Inside) (fun _ => inside_neg.mpr)
    (inside_of_index (by decide)) insideF insideG insideH
  rw [freshIte_eq]
  split
  · rename_i known
    rw [known] at form
    exact settles_pure form
  · rename_i f' g' h' c standard
    rw [standard] at form
    obtain ⟨insideF', insideG', insideH'⟩ := form
    apply Settles.complementIf
    apply splitAt_settles insideF' insideG' insideH'
    intro inner e grown
    have weight := IteForm.weight_le standard
    have smaller := weight_split_lt inner
    have partsF := insideF'.cofactors (d.topLevel f' g' h')
    have partsG := insideG'.cofactors (d.topLevel f' g' h')
    have partsH := insideH'.cofactors (d.topLevel f' g' h')
    constructor
    · exact freshIte_settles (partsF.1.later grown) (partsG.1.later grown) (partsH.1.later grown)
    · exact freshIte_settles (partsF.2.later grown) (partsG.2.later grown) (partsH.2.later grown)
termination_by f.weight + g.weight + h.weight

theorem recompute_ite_settles (insideF : d.Inside f) (insideG : d.Inside g) (insideH : d.Inside h) :
    Settles (recompute (.ite f g h)) d := by
  apply splitAt_settles insideF insideG insideH
  intro _ e grown
  have partsF := insideF.cofactors (d.topLevel f g h)
  have partsG := insideG.cofactors (d.topLevel f g h)
  have partsH := insideH.cofactors (d.topLevel f g h)
  constructor
  · exact freshIte_settles (partsF.1.later grown) (partsG.1.later grown) (partsH.1.later grown)
  · exact freshIte_settles (partsF.2.later grown) (partsG.2.later grown) (partsH.2.later grown)

theorem freshExists_eq {v : Nat} (nonzero : v ≠ 0) (f : Ref) :
    freshExists f v = get >>= fun d => d.existsAt f v := by
  rw [freshExists, if_neg nonzero]
  apply congrArg (get >>= ·)
  funext d
  simp only [existsAt, dite_eq_ite]

theorem Inside.existsAt_eq (inside : d.Inside f) (grown : e.Extends d) (v : Nat) :
    e.existsAt f v = d.existsAt f v := by
  simp only [existsAt, inside.level_eq grown, inside.low_eq grown, inside.high_eq grown,
    inside.node?_eq grown]

theorem freshExists_settles {d : Diagram} {f : Ref} (v : Nat) (inside : d.Inside f) :
    Settles (freshExists f v) d := by
  by_cases zero : v = 0
  · rw [freshExists, if_pos zero]
    exact settles_throw
  rw [freshExists_eq zero]
  apply settles_get
  · unfold existsAt
    split
    · exact settles_pure inside
    split
    · exact freshIte_settles inside.low (inside_of_index (by decide)) inside.high
    split
    · exact settles_throw
    · rename_i inner
      obtain ⟨n, inner⟩ := Option.ne_none_iff_exists'.mp inner
      have smaller := weight_lt_of_node? inner
      apply (freshExists_settles v inside.low).bind
      intro low d₁ grown insideLow
      apply (freshExists_settles v (inside.high.later grown)).bind
      intro high d₂ grown₂ _
      exact mkNode_settles (insideLow.later grown₂)
  · intro e grown
    rw [inside.existsAt_eq grown]
termination_by f.weight

/-! ### With the table -/

/-- The computation does what `fresh` does without the table, and leaves a right table. -/
def Follows (act fresh : DiagramM α) (d : Diagram) : Prop :=
  Ensures act d (fun v => fresh d.forget = .error v) fun a e =>
    fresh d.forget = .ok (a, e.forget) ∧ e.Settled

theorem follows_pure {a : α} (settled : d.Settled) : Follows (pure a) (pure a) d := ⟨rfl, settled⟩

theorem follows_throw {v : Violation} : Follows (throw v : DiagramM α) (throw v) d := rfl

theorem Follows.bind {act fresh : DiagramM α} {next next' : α → DiagramM β}
    (first : Follows act fresh d) (then_ : ∀ a e, fresh d.forget = .ok (a, e.forget) →
      e.Settled → Follows (next a) (next' a) e) : Follows (act >>= next) (fresh >>= next') d := by
  unfold Follows
  rw [Checked.ensures_bind]
  apply first.imp
  · rintro a e ⟨run, settled⟩
    have step : (fresh >>= next') d.forget = next' a e.forget := by
      simp [Bind.bind, StateT.bind, Except.bind, run]
    rw [step]
    exact then_ a e run settled
  · intro v run
    simp [Bind.bind, StateT.bind, Except.bind, run]

theorem Settled.later (settled : d.Settled) (grown : e.Extends d)
    (table : e.computed = d.computed) : e.Settled :=
  fun op r found e' more => settled op r (table ▸ found) e' (more.trans grown)

theorem place_forget (n : Node) (reduced : n.Reduced) (d : Diagram) :
    place n reduced d.forget = (place n reduced d).map (Prod.map id forget) := by
  obtain ⟨nodes, unique, computed, vars, childrenLt, nodesReduced, uniqueIff⟩ := d
  unfold place forget
  dsimp only
  split
  · rfl
  split
  · split <;> rfl
  · rfl

theorem place_follows (reduced : n.Reduced) (settled : d.Settled) :
    Follows (place n reduced) (place n reduced) d := by
  have settles := place_settles (d := d) reduced
  unfold Follows Ensures
  rw [place_forget]
  cases run : place n reduced d with
  | error v => rfl
  | ok a =>
    obtain ⟨r, e⟩ := a
    refine ⟨rfl, settled.later (settles.of_ok run).1 ?_⟩
    unfold place at run
    split at run
    · cases run
      rfl
    split at run
    · split at run
      · cases run
        rfl
      · cases run
    · cases run

theorem mkNode_follows {v : Nat} {low high : Ref} (settled : d.Settled) :
    Follows (mkNode v low high) (mkNode v low high) d := by
  unfold mkNode
  split
  · exact follows_throw
  split
  · exact follows_pure settled
  split
  · split
    · exact follows_throw
    · exact (place_follows _ settled).bind fun _ _ _ kept => follows_pure kept
  · exact place_follows _ settled

theorem Settled.withComputed (settled : d.Settled) {table : DirectMapped Operation Ref}
    (fewer : ∀ op r, table.find? op = some r → d.computed.find? op = some r) :
    Settled { d with computed := table } :=
  fun op r found e grown => settled op r (fewer op r found) e grown

/-- An entry that recomputation confirms may be written. -/
theorem Settled.insert {op : Operation} (settled : d.Settled)
    (right : ∀ e, e.Extends d → recompute op e = .ok (r, e)) :
    Settled { d with computed := d.computed.insert op r } := by
  intro op' r' found e grown
  rcases DirectMapped.find?_insert found with ⟨rfl, rfl⟩ | old
  · exact right e grown
  · exact settled op' r' old e grown

theorem Follows.remembering {act : DiagramM Ref} {op : Operation} (k : Ref → α)
    (follows : Follows act (recompute op) d) (settles : Settles (recompute op) d.forget) :
    Follows (do let r ← act; remember op r; return k r) (do return k (← recompute op)) d := by
  apply follows.bind
  intro r e run kept
  have again := (settles.of_ok run).2.2
  exact ⟨rfl, kept.insert again⟩

/-- A hit gives what recomputation gives, so only a miss has to be looked at. -/
theorem remembered?_follows (op : Operation) {k : Ref → α} {miss : DiagramM α}
    (settled : d.Settled) (missed : ∀ e, e.Extends d → e.Settled →
      Follows miss (do return k (← recompute op)) e) :
    Follows (do
      match ← remembered? op with
      | some r => return k r
      | none => miss) (do return k (← recompute op)) d := by
  unfold Follows
  rw [Checked.ensures_bind]
  obtain ⟨table, run, same⟩ := remembered?_run op d
  have kept : Settled { d with computed := table } :=
    settled.withComputed fun op' r found => same op' ▸ found
  simp only [Ensures, run]
  cases found : d.computed.find? op with
  | some r =>
    have again := settled op r found d.forget (fun _ _ h => h)
    have result : (do return k (← recompute op) : DiagramM α) d.forget = .ok (k r, d.forget) := by
      simp [Bind.bind, StateT.bind, Except.bind, again]
      rfl
    exact ⟨result, kept⟩
  | none => exact missed { d with computed := table } (fun _ _ h => h) kept

theorem follows_get {next : Diagram → DiagramM α} {fresh : DiagramM α}
    (follows : Follows (next d) fresh d) : Follows (get >>= next) fresh d := follows

/-- Recomputation does not look at the table to find the first level of a split. -/
theorem Follows.of_splitAt {act : DiagramM Ref} (follows : Follows act (d.splitAt f g h) d) :
    Follows act (recompute (.ite f g h)) d := follows

theorem ite_follows {d : Diagram} {f g h : Ref} (settled : d.Settled) (insideF : d.Inside f)
    (insideG : d.Inside g) (insideH : d.Inside h) : Follows (ite f g h) (freshIte f g h) d := by
  have form := ofTriple_all (P := d.Inside) (fun _ => inside_neg.mpr)
    (inside_of_index (by decide)) insideF insideG insideH
  rw [ite, freshIte_eq]
  split
  · rename_i known
    rw [known]
    exact follows_pure settled
  rename_i f' g' h' c standard
  rw [standard] at form ⊢
  obtain ⟨insideF', insideG', insideH'⟩ := form
  have weight := IteForm.weight_le standard
  apply remembered?_follows (.ite f' g' h') settled
  intro d₁ grown settled₁
  have f₁ := insideF'.later grown
  have g₁ := insideG'.later grown
  have h₁ := insideH'.later grown
  apply follows_get
  split
  · rename_i bottom
    have split : Follows (throw .illFormed) (recompute (.ite f' g' h')) d₁ := by
      apply Follows.of_splitAt
      rw [splitAt, if_pos bottom]
      exact follows_throw
    exact split.bind fun r e run kept => follows_pure kept
  rename_i inner
  -- The recursive calls are on cofactors, which the grown diagram reads as the first one did.
  have smaller := weight_split_lt inner
  have partsF := f₁.cofactors (d₁.topLevel f' g' h')
  have partsG := g₁.cofactors (d₁.topLevel f' g' h')
  have partsH := h₁.cofactors (d₁.topLevel f' g' h')
  have split : Follows (do
      let e ← ite (d₁.cofactors (d₁.topLevel f' g' h') f').1
        (d₁.cofactors (d₁.topLevel f' g' h') g').1 (d₁.cofactors (d₁.topLevel f' g' h') h').1
      let t ← ite (d₁.cofactors (d₁.topLevel f' g' h') f').2
        (d₁.cofactors (d₁.topLevel f' g' h') g').2 (d₁.cofactors (d₁.topLevel f' g' h') h').2
      mkNode (d₁.topLevel f' g' h') e t) (recompute (.ite f' g' h')) d₁ := by
    apply Follows.of_splitAt
    rw [splitAt, if_neg inner]
    apply (ite_follows settled₁ partsF.1 partsG.1 partsH.1).bind
    intro e d₂ run kept
    have first := freshIte_settles (d := d₁.forget) partsF.1 partsG.1 partsH.1
    have grown₂ : d₂.Extends d₁ := (first.of_ok run).1
    apply (ite_follows kept (partsF.2.later grown₂) (partsG.2.later grown₂)
      (partsH.2.later grown₂)).bind
    intro t d₃ _ kept₃
    exact mkNode_follows kept₃
  have settles := recompute_ite_settles (d := d₁.forget) f₁ g₁ h₁
  simpa only [bind_assoc] using split.remembering (·.complementIf c) settles
termination_by f.weight + g.weight + h.weight

theorem existsVar_follows {d : Diagram} {f : Ref} (v : Nat) (settled : d.Settled)
    (inside : d.Inside f) : Follows (existsVar f v) (freshExists f v) d := by
  rw [existsVar]
  split
  · rename_i zero
    rw [freshExists, if_pos zero]
    exact follows_throw
  rename_i nonzero
  -- Whatever was added since, `f` is read as it was, so the recomputation takes the same branch.
  have fresh {act : DiagramM Ref} {e : Diagram} (grown : e.Extends d)
      (follows : Follows act (d.existsAt f v) e) : Follows act (freshExists f v) e := by
    rw [← inside.existsAt_eq grown] at follows
    rw [freshExists_eq nonzero]
    exact follows
  apply follows_get
  dsimp only
  split
  · rename_i below
    apply fresh (.refl d)
    rw [existsAt, if_pos below]
    exact follows_pure settled
  rename_i notBelow
  rw [← bind_pure (freshExists f v)]
  apply remembered?_follows (.exists f v) (k := id) settled
  intro d₁ grown settled₁
  have settles := freshExists_settles (d := d₁.forget) v (inside.later grown)
  have low₁ := inside.low.later grown
  have high₁ := inside.high.later grown
  split
  · rename_i top
    have body : Follows (or (d.low f) (d.high f)) (recompute (.exists f v)) d₁ := by
      apply fresh grown
      rw [existsAt, if_neg notBelow, if_pos top]
      exact ite_follows settled₁ low₁ (inside_of_index (by decide)) high₁
    exact body.remembering id settles
  rename_i notTop
  split
  · rename_i none
    have body : Follows (throw .illFormed) (recompute (.exists f v)) d₁ := by
      apply fresh grown
      rw [existsAt, if_neg notBelow, if_neg notTop, if_pos none]
      exact follows_throw
    exact body.bind fun r e run kept => follows_pure kept
  rename_i n inner
  have smaller := weight_lt_of_node? inner
  have body : Follows (do
      let low ← existsVar (d.low f) v
      let high ← existsVar (d.high f) v
      mkNode (d.level f) low high) (recompute (.exists f v)) d₁ := by
    apply fresh grown
    rw [existsAt, if_neg notBelow, if_neg notTop, if_neg (by simp [inner])]
    apply (existsVar_follows v settled₁ low₁).bind
    intro low d₂ run kept
    have first := freshExists_settles (d := d₁.forget) v low₁
    have grown₂ : d₂.Extends d₁ := (first.of_ok run).1
    apply (existsVar_follows v kept (high₁.later grown₂)).bind
    intro high d₃ _ kept₃
    exact mkNode_follows kept₃
  simpa only [bind_assoc, id] using body.remembering id settles
termination_by f.weight

end Diagram

end ProgramAnalysis
