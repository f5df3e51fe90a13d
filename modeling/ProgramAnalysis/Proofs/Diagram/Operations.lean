import ProgramAnalysis.Proofs.Diagram.Canonicity
import ProgramAnalysis.Proofs.Outcome

/-! What the operations on diagrams compute. A diagram is valid if it is ordered, has no more nodes than
there are numbers for, knows the largest variable it tests and only remembers right results. Every
operation keeps that, adds nodes only, and gives a reference with the meaning of the operation; the
one contract it can break is the limit on the number of nodes. -/
namespace ProgramAnalysis

namespace DirectMapped

variable {κ ν : Type} [SlotKey κ] [DecidableEq κ]

theorem find?_insert {t : DirectMapped κ ν} {k k' : κ} {v w : ν}
    (found : (t.insert k v).find? k' = some w) : k' = k ∧ w = v ∨ t.find? k' = some w := by
  rw [find?_insert_eq] at found
  split at found
  · split at found
    · rename_i same
      cases found
      exact .inl ⟨same.symm, rfl⟩
    · cases found
  · exact .inr found

end DirectMapped

namespace Diagram

open Checked (Ensures)

variable {d e e' : Diagram} {f g h r : Ref} {n : Node} {v : Valuation}

/-- What a remembered result says. -/
def Answers (d : Diagram) : Operation → Ref → Prop
  | .ite f g h, r => (d.Has f ∧ d.Has g ∧ d.Has h ∧ d.Has r) ∧
      ∀ v, d.eval v r = if d.eval v f then d.eval v g else d.eval v h
  | .exists f x, r => (d.Has f ∧ d.Has r) ∧
      ∀ v, d.eval v r = (d.eval (Function.update v x false) f || d.eval (Function.update v x true) f)

structure Valid (d : Diagram) : Prop where
  ordered : d.Ordered
  size_le : d.nodes.size + 2 ≤ 0x7fffffff
  var_le : ∀ (i : Nat) (n : Node), d.nodes[i]? = some n → n.var ≤ d.vars
  answers : ∀ op r, d.computed.find? op = some r → d.Answers op r

/-- A valid diagram with all nodes of `d` and no new variable. -/
structure Grows (d e : Diagram) : Prop where
  valid : e.Valid
  nodes : e.Extends d
  vars : e.vars = d.vars

theorem ofBits_valid {bits : Nat} (made : ofBits bits = .ok d) :
    d.Valid ∧ d.nodes = #[] ∧ d.vars = 0 := by
  unfold ofBits DirectMapped.ofBits at made
  split at made
  · cases made
    refine ⟨⟨⟨by simp, by simp, by simp, by simp⟩, by simp, by simp, ?_⟩, rfl, rfl⟩
    intro op r found
    simp [DirectMapped.find?, DirectMapped.empty] at found
  · cases made

theorem ofBits_ok {bits : Nat} (small : bits ≤ 31) : ∃ d, ofBits bits = .ok d := by
  unfold ofBits DirectMapped.ofBits
  rw [dif_pos small]
  exact ⟨_, rfl⟩

namespace Grows

theorem refl (valid : d.Valid) : d.Grows d := ⟨valid, .refl d, rfl⟩

theorem trans (first : d.Grows e) (second : e.Grows e') : d.Grows e' :=
  ⟨second.valid, second.nodes.trans first.nodes, second.vars.trans first.vars⟩

theorem has (grown : d.Grows e) (has : d.Has r) : e.Has r := grown.nodes.has has

end Grows

theorem Extends.eval_valid (grown : e.Extends d) (valid : d.Valid) (has : d.Has r)
    (v : Valuation) : e.eval v r = d.eval v r := grown.eval_eq valid.ordered v r has

theorem Answers.of_extends {op : Operation} (answers : d.Answers op r) (grown : e.Extends d)
    (ordered : d.Ordered) : e.Answers op r := by
  cases op with
  | ite f g h =>
    obtain ⟨⟨hasF, hasG, hasH, hasR⟩, meaning⟩ := answers
    refine ⟨⟨grown.has hasF, grown.has hasG, grown.has hasH, grown.has hasR⟩, fun v => ?_⟩
    simp only [grown.eval_eq ordered _ _ hasF, grown.eval_eq ordered _ _ hasG,
      grown.eval_eq ordered _ _ hasH, grown.eval_eq ordered _ _ hasR, meaning]
  | «exists» f x =>
    obtain ⟨⟨hasF, hasR⟩, meaning⟩ := answers
    refine ⟨⟨grown.has hasF, grown.has hasR⟩, fun v => ?_⟩
    simp only [grown.eval_eq ordered _ _ hasF, grown.eval_eq ordered _ _ hasR, meaning]

/-! ### New nodes

An operation makes no nodes but those of its result. So it can only run out of numbers for nodes when
the nodes of the result do not fit. -/

/-- The functions of the nodes of a diagram for `m`: variables are given values, and nodes may stand for
complements. -/
inductive Cofactor (m : Valuation → Bool) : (Valuation → Bool) → Prop
  | self : Cofactor m m
  | fix {g : Valuation → Bool} (x : Nat) (b : Bool) (of : Cofactor m g) :
      Cofactor m fun v => g (Function.update v x b)
  | not {g : Valuation → Bool} (of : Cofactor m g) : Cofactor m fun v => !g v

theorem Cofactor.trans {m g k : Valuation → Bool} (first : Cofactor m g) (second : Cofactor g k) :
    Cofactor m k := by
  induction second with
  | self => exact first
  | fix x b _ ih => exact ih.fix x b
  | not _ ih => exact ih.not

theorem Cofactor.bne {m : Valuation → Bool} (flag : Bool) : Cofactor m fun v => m v != flag := by
  cases flag with
  | false => simpa using Cofactor.self
  | true => simpa using Cofactor.self.not

/-- A valid diagram with all nodes of `d` whose new nodes are for functions in `S`. -/
structure Builds (S : (Valuation → Bool) → Prop) (d e : Diagram) : Prop where
  valid : e.Valid
  nodes : e.Extends d
  needed : ∀ i, d.nodes.size ≤ i → i < e.nodes.size → S fun v => e.eval v (.node (i + 2))

/-- There is no number left for another node. -/
def Full (d : Diagram) : Prop := 0x7fffffff ≤ d.nodes.size + 2

/-- Nodes for functions in `S` are too many. -/
def Exhausts (S : (Valuation → Bool) → Prop) (d : Diagram) (violation : Violation) : Prop :=
  violation = .nodesExhausted ∧ ∃ e, d.Builds S e ∧ e.Full

namespace Builds

variable {S T : (Valuation → Bool) → Prop}

theorem of_size (valid : e.Valid) (nodes : e.Extends d) (size : e.nodes.size ≤ d.nodes.size) :
    d.Builds S e := ⟨valid, nodes, fun i old new => by omega⟩

theorem trans (first : d.Builds S e) (second : e.Builds S e') : d.Builds S e' := by
  refine ⟨second.valid, second.nodes.trans first.nodes, fun i old new => ?_⟩
  by_cases before : i < e.nodes.size
  · have has : e.Has (.node (i + 2)) := ⟨by simp, by simpa using before⟩
    simpa only [second.nodes.eval_valid first.valid has] using first.needed i old before
  · exact second.needed i (Nat.le_of_not_lt before) new

theorem mono (builds : d.Builds S e) (more : ∀ g, S g → T g) : d.Builds T e :=
  ⟨builds.valid, builds.nodes, fun i old new => more _ (builds.needed i old new)⟩

theorem refl (valid : d.Valid) : d.Builds S d := of_size valid (.refl d) (Nat.le_refl _)

theorem exhausts {violation : Violation} (builds : d.Builds S e)
    (full : violation = .nodesExhausted ∧ e.Full) : d.Exhausts S violation :=
  ⟨full.1, e, builds, full.2⟩

end Builds

namespace Exhausts

variable {S : (Valuation → Bool) → Prop} {violation : Violation}

theorem after (exhausts : e.Exhausts S violation) (first : d.Builds S e) :
    d.Exhausts S violation := by
  obtain ⟨same, e', builds, full⟩ := exhausts
  exact ⟨same, e', first.trans builds, full⟩

end Exhausts

/-! ### Nodes -/

theorem extends_of_push (nodes : e.nodes = d.nodes.push n) : e.Extends d := by
  intro i m inside
  have bound := (Array.getElem?_eq_some_iff.mp inside).1
  rw [nodes, Array.getElem?_push, if_neg (by omega)]
  exact inside

theorem Ordered.children_known (ordered : d.Ordered) {i : Nat} (inside : d.nodes[i]? = some n) :
    d.Has n.low ∧ d.Has n.high := by
  have bound := (Array.getElem?_eq_some_iff.mp inside).1
  have smaller := d.children_lt i n inside
  exact ⟨⟨ordered.has_low i n inside, by omega⟩, ⟨ordered.has_high i n inside, by omega⟩⟩

theorem Ordered.push (ordered : d.Ordered) (nodes : e.nodes = d.nodes.push n)
    (hasLow : d.Has n.low) (hasHigh : d.Has n.high) (low : n.var < d.level n.low)
    (high : n.var < d.level n.high) : e.Ordered := by
  have grown : e.Extends d := extends_of_push nodes
  have split (i : Nat) (m : Node) (inside : e.nodes[i]? = some m) :
      m = n ∨ d.nodes[i]? = some m := by
    rw [nodes, Array.getElem?_push] at inside
    split at inside
    · exact .inl (Option.some.inj inside).symm
    · exact .inr inside
  constructor
  · intro i m inside
    rcases split i m inside with rfl | old
    · exact hasLow.1
    · exact ordered.has_low i m old
  · intro i m inside
    rcases split i m inside with rfl | old
    · exact hasHigh.1
    · exact ordered.has_high i m old
  · intro i m inside
    rcases split i m inside with rfl | old
    · rw [grown.level_eq hasLow]
      exact low
    · rw [grown.level_eq (ordered.children_known old).1]
      exact ordered.var_lt_low i m old
  · intro i m inside
    rcases split i m inside with rfl | old
    · rw [grown.level_eq hasHigh]
      exact high
    · rw [grown.level_eq (ordered.children_known old).2]
      exact ordered.var_lt_high i m old

/-- What placing a node gives: the node under an unsigned reference. -/
structure Placed (d e : Diagram) (n : Node) (r : Ref) : Prop where
  valid : e.Valid
  nodes : e.Extends d
  vars_le : e.vars ≤ max d.vars n.var
  le_vars : d.vars ≤ e.vars
  has : e.Has r
  inner : e.node? r = some n
  regular : r.isNegated = false
  new : ∀ i, d.nodes.size ≤ i → i < e.nodes.size → .node (i + 2) = r

theorem node?_node (d : Diagram) (i : Nat) : d.node? (.node (i + 2)) = d.nodes[i]? := by
  simp [node?, show ¬ i + 2 < 2 by omega]

theorem isNegated_node (i : Nat) : (Ref.node i).isNegated = false := by
  have : ¬ (i : Int) < 0 := by omega
  simp [Ref.isNegated, Ref.node, this]

theorem place_ensures (valid : d.Valid) (reduced : n.Reduced) (hasLow : d.Has n.low)
    (hasHigh : d.Has n.high) (low : n.var < d.level n.low) (high : n.var < d.level n.high) :
    Ensures (place n reduced) d (fun violation => violation = .nodesExhausted ∧ d.Full)
      fun r e => d.Placed e n r := by
  refine Checked.ensures_of_forall (fun r e run => ?_) fun v run => ?_
  · unfold place at run
    split at run
    · rename_i i known
      cases run
      have inside := (d.unique_iff n i).mp known
      have bound := (Array.getElem?_eq_some_iff.mp inside).1
      exact ⟨valid, .refl d, Nat.le_max_left _ _, Nat.le_refl _,
        ⟨by simp, by simpa using bound⟩, (node?_node d i).trans inside, isNegated_node _,
        fun i old new => by omega⟩
    · split at run
      · split at run
        · cases run
          rename_i room _
          -- The node is new, and its children are below it because their levels are larger.
          refine ⟨⟨valid.ordered.push rfl hasLow hasHigh low high, ?_, ?_, ?_⟩, extends_of_push rfl,
            Nat.le_refl _, Nat.le_max_left _ _, ⟨by simp, by simp⟩, ?_, isNegated_node _, ?_⟩
          · rw [Array.size_push]
            omega
          · intro i m inside
            rw [Array.getElem?_push] at inside
            split at inside
            · cases inside
              exact Nat.le_max_right _ _
            · exact Nat.le_trans (valid.var_le i m inside) (Nat.le_max_left _ _)
          · intro op r found
            exact (valid.answers op r found).of_extends (extends_of_push rfl) valid.ordered
          · rw [node?_node]
            exact Array.getElem?_push_size
          · intro i old new
            rw [Array.size_push] at new
            rw [show i = d.nodes.size by omega]
        · cases run
      · cases run
  · unfold place at run
    split at run
    · cases run
    · split at run
      · split at run
        · cases run
        · rename_i newer
          exact absurd ⟨hasLow.2, hasHigh.2⟩ newer
      · cases run
        exact ⟨rfl, by unfold Full; omega⟩

/-- In an empty diagram a node gets the number after those of the constants. -/
theorem place_first (reduced : n.Reduced) (empty : d.nodes = #[]) :
    Ensures (place n reduced) d (fun _ => True) fun r _ => r = .node 2 := by
  refine Checked.ensures_of_forall (fun r e run => ?_) fun _ _ => trivial
  unfold place at run
  split at run
  · rename_i i known
    have inside := (d.unique_iff n i).mp known
    simp [empty] at inside
  split at run
  · split at run
    · cases run
      simp [empty]
    · cases run
  · cases run

theorem mkVar_first (x : Nat) (empty : d.nodes = #[]) :
    Ensures (mkVar x) d (fun _ => True) fun r _ => r = .node 2 := by
  unfold mkVar mkNode
  split
  · trivial
  · rw [dif_neg (by decide), dif_neg (by decide)]
    exact place_first _ empty

theorem place_of_mem (reduced : n.Reduced) {i : Nat} (inside : d.nodes[i]? = some n) :
    place n reduced d = .ok (.node (i + 2), d) := by
  have known := (d.unique_iff n i).mpr inside
  unfold place
  split
  · rename_i j found
    rw [known] at found
    cases found
    rfl
  · rename_i missing
    rw [known] at missing
    cases missing

/-- What making a node gives: the function that is `high` where `x` is true and `low` elsewhere. -/
structure Made (d e : Diagram) (x : Nat) (low high r : Ref) : Prop where
  valid : e.Valid
  nodes : e.Extends d
  vars_le : e.vars ≤ max d.vars x
  le_vars : d.vars ≤ e.vars
  has : e.Has r
  eval : ∀ v, e.eval v r = if v x then d.eval v high else d.eval v low
  new : ∀ i, d.nodes.size ≤ i → i < e.nodes.size → .node (i + 2) = r ∨ .node (i + 2) = -r

theorem Placed.made {x : Nat} {low high : Ref} (placed : d.Placed e ⟨x, low, high⟩ r)
    (valid : d.Valid) (hasLow : d.Has low) (hasHigh : d.Has high) : d.Made e x low high r where
  valid := placed.valid
  nodes := placed.nodes
  vars_le := placed.vars_le
  le_vars := placed.le_vars
  has := placed.has
  eval v := by
    rw [eval_of_node? placed.inner, high_of_node? placed.inner, low_of_node? placed.inner,
      placed.regular, ← placed.nodes.eval_valid valid hasLow, ← placed.nodes.eval_valid valid hasHigh]
    rfl
  new i old new := .inl (placed.new i old new)

theorem Made.neg {x : Nat} {low high : Ref} (made : d.Made e x (-low) (-high) r)
    (valid : d.Valid) (hasLow : d.Has low) (hasHigh : d.Has high) :
    d.Made e x low high (-r) where
  valid := made.valid
  nodes := made.nodes
  vars_le := made.vars_le
  le_vars := made.le_vars
  has := has_neg.mpr made.has
  eval v := by
    rw [made.valid.ordered.eval_neg v r made.has.1, made.eval,
      valid.ordered.eval_neg v low hasLow.1, valid.ordered.eval_neg v high hasHigh.1]
    split <;> simp
  new i old new := by
    rw [Ref.neg_neg]
    exact (made.new i old new).symm

/-- The only new node is for the function that was made or for its complement. -/
theorem Made.builds {x : Nat} {low high : Ref} {m : Valuation → Bool} (made : d.Made e x low high r)
    (eval : ∀ v, e.eval v r = m v) : d.Builds (Cofactor m) e := by
  refine ⟨made.valid, made.nodes, fun i old new => ?_⟩
  rcases made.new i old new with same | same
  · simpa only [same, eval] using Cofactor.self
  · simpa only [same, made.valid.ordered.eval_neg _ r made.has.1, eval] using Cofactor.self.not

theorem level_neg (d : Diagram) (r : Ref) : d.level (-r) = d.level r :=
  level_complementIf d r true

theorem mkNode_ensures {x : Nat} {low high : Ref} (valid : d.Valid) (nonzero : x ≠ 0)
    (hasLow : d.Has low) (hasHigh : d.Has high) (belowLow : x < d.level low)
    (belowHigh : x < d.level high) :
    Ensures (mkNode x low high) d (fun violation => violation = .nodesExhausted ∧ d.Full)
      fun r e => d.Made e x low high r := by
  unfold mkNode
  rw [dif_neg nonzero]
  split
  · rename_i same
    subst same
    exact ⟨valid, .refl d, Nat.le_max_left _ _, Nat.le_refl _, hasLow, fun v => by simp,
      fun i old new => by omega⟩
  split
  · rename_i sign
    have regular : ¬ (-high).isNegated = true := by
      rw [isNegated_neg hasHigh.1, sign]
      decide
    rw [dif_neg regular, Checked.ensures_bind]
    refine (place_ensures valid _ (has_neg.mpr hasLow) (has_neg.mpr hasHigh)
      (by rwa [level_neg]) (by rwa [level_neg])).mono fun r e placed => ?_
    exact (placed.made valid (has_neg.mpr hasLow) (has_neg.mpr hasHigh)).neg valid hasLow hasHigh
  · exact (place_ensures valid _ hasLow hasHigh belowLow belowHigh).mono
      fun r e placed => placed.made valid hasLow hasHigh

theorem mkVar_ensures {x : Nat} (valid : d.Valid) (nonzero : x ≠ 0) (inUse : x ≤ d.vars)
    (small : x < bottomLevel) :
    Ensures (mkVar x) d (fun violation => violation = .nodesExhausted ∧ d.Full) fun r e =>
      (d.Grows e ∧ e.Has r ∧ ∀ v, e.eval v r = v x) ∧ d.Builds (Cofactor fun v => v x) e := by
  have below (r : Ref) (index : r.index = 1) : x < d.level r := by
    simpa [level, node?_eq_none_of_index d (show r.index < 2 by omega)] using small
  apply (mkNode_ensures valid nonzero d.has_zero d.has_one (below _ rfl) (below _ rfl)).mono
  intro r e made
  have eval (v : Valuation) : e.eval v r = v x := by
    rw [made.eval]
    cases v x <;> simp
  have vars : e.vars = d.vars := by
    have := made.vars_le
    have := made.le_vars
    omega
  exact ⟨⟨⟨made.valid, made.nodes, vars⟩, made.has, eval⟩, made.builds eval⟩

theorem Valid.var_ref_le (valid : d.Valid) (r : Ref) : d.var r ≤ d.vars := by
  unfold var
  split
  · rename_i inner
    exact valid.var_le _ _ (getElem?_of_node? inner)
  · exact Nat.zero_le _

theorem Valid.eval_congr (valid : d.Valid) {w : Valuation} (r : Ref)
    (agree : ∀ x ≤ d.vars, x ≠ 0 → v x = w x) : d.eval v r = d.eval w r := by
  cases inner : d.node? r with
  | none => rw [eval_of_terminal inner, eval_of_terminal inner]
  | some n =>
    have smaller := weight_lt_of_node? inner
    have root := getElem?_of_node? inner
    rw [eval_of_node? inner, eval_of_node? inner,
      agree n.var (valid.var_le _ _ root) (d.reduced _ _ root).var_ne_zero,
      valid.eval_congr (d.low r) agree, valid.eval_congr (d.high r) agree]
termination_by r.weight

theorem newVar_ensures (d : Diagram) :
    Ensures newVar d (fun v => v = .outOfRange ∧ 0x100000000 ≤ d.vars + 1) fun x e =>
      x = d.vars + 1 ∧ e = { d with vars := d.vars + 1 } := by
  refine Checked.ensures_of_forall (fun x e run => ?_) fun v run => ?_
  · unfold newVar at run
    split at run <;> cases run
    exact ⟨rfl, rfl⟩
  · unfold newVar at run
    split at run <;> cases run
    exact ⟨rfl, by omega⟩

theorem Valid.withVars (valid : d.Valid) {x : Nat} (le : d.vars ≤ x) :
    Valid { d with vars := x } := by
  have same : Extends { d with vars := x } d := fun _ _ h => h
  exact ⟨⟨valid.ordered.has_low, valid.ordered.has_high, valid.ordered.var_lt_low,
    valid.ordered.var_lt_high⟩, valid.size_le,
    fun i n inside => Nat.le_trans (valid.var_le i n inside) le,
    fun op r found => (valid.answers op r found).of_extends same valid.ordered⟩

/-- The first function of a new variable needs a new node. -/
theorem size_lt_of_fresh (valid : d.Valid) (grown : e.Extends d) {x : Nat}
    (fresh : d.vars < x) (has : e.Has r) (eval : ∀ v, e.eval v r = v x) :
    d.nodes.size < e.nodes.size := by
  by_contra notLt
  have old : d.Has r := ⟨has.1, by have := has.2; omega⟩
  have without : ∀ y ≤ d.vars, y ≠ 0 → true = Function.update (fun _ => true) x false y := by
    intro y le _
    rw [Function.update_of_ne (show y ≠ x by omega)]
  have independent := valid.eval_congr r without
  rw [← grown.eval_valid valid old, ← grown.eval_valid valid old, eval, eval] at independent
  simp at independent

/-! ### The computed table -/

theorem Valid.withComputed (valid : d.Valid) {table : DirectMapped Operation Ref}
    (answers : ∀ op r, table.find? op = some r → d.Answers op r) :
    d.Grows { d with computed := table } := by
  have same : Extends { d with computed := table } d := fun _ _ h => h
  refine ⟨⟨?_, valid.size_le, valid.var_le, fun op r found =>
    (answers op r found).of_extends same valid.ordered⟩, same, rfl⟩
  exact ⟨valid.ordered.has_low, valid.ordered.has_high, valid.ordered.var_lt_low,
    valid.ordered.var_lt_high⟩

/-- A query finds what the table holds for it and changes no answer of the table. -/
theorem remembered?_run (op : Operation) (d : Diagram) : ∃ table : DirectMapped Operation Ref,
    remembered? op d = .ok (d.computed.find? op, { d with computed := table }) ∧
      ∀ op', table.find? op' = d.computed.find? op' := by
  refine ⟨(d.computed.get? op).2, ?_, fun op' => DirectMapped.find?_get? _ _ _⟩
  rw [← DirectMapped.fst_get?]
  rfl

theorem remembered?_ensures {bad : Violation → Prop} (valid : d.Valid) (op : Operation) :
    Ensures (remembered? op) d bad fun answer e =>
      (d.Grows e ∧ e.nodes = d.nodes) ∧ ∀ r, answer = some r → e.Answers op r := by
  obtain ⟨table, run, same⟩ := remembered?_run op d
  have grown : d.Grows { d with computed := table } :=
    valid.withComputed fun op' r found => valid.answers op' r (same op' ▸ found)
  simp only [Ensures, run]
  exact ⟨⟨grown, trivial⟩, fun r found =>
    (valid.answers op r found).of_extends grown.nodes valid.ordered⟩

theorem remember_ensures {bad : Violation → Prop} (valid : d.Valid) {op : Operation}
    (answers : d.Answers op r) :
    Ensures (remember op r) d bad fun _ e => d.Grows e ∧ e.nodes = d.nodes := by
  refine ⟨valid.withComputed fun op' r' found => ?_, rfl⟩
  rcases DirectMapped.find?_insert found with ⟨rfl, rfl⟩ | old
  · exact answers
  · exact valid.answers op' r' old

end Diagram

end ProgramAnalysis
