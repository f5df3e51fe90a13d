import ProgramAnalysis.Diagram.Ite

/-!
The meaning of diagrams. Under a valuation of the variables every reference has a truth value: an
inner node passes on to the child that the value of its variable selects. Negation negates, the
constants are constant, and a diagram that only gains nodes keeps the meaning of what it had.
-/
namespace ProgramAnalysis

abbrev Valuation := Nat → Bool

namespace Diagram

def eval (d : Diagram) (v : Valuation) (r : Ref) : Bool :=
  match _inner : d.node? r with
  | none => !r.isNegated
  | some n => if v n.var then d.eval v (d.high r) else d.eval v (d.low r)
termination_by r.weight
decreasing_by
  · exact (weight_lt_of_node? _inner).2
  · exact (weight_lt_of_node? _inner).1

/-- References to the nodes of a diagram. -/
def Has (d : Diagram) (r : Ref) : Prop := 1 ≤ r.index ∧ r.index < d.nodes.size + 2

/-- The children of every node are known, and it tests a variable before theirs. -/
structure Ordered (d : Diagram) : Prop where
  has_low : ∀ (i : Nat) (n : Node), d.nodes[i]? = some n → 1 ≤ n.low.index
  has_high : ∀ (i : Nat) (n : Node), d.nodes[i]? = some n → 1 ≤ n.high.index
  var_lt_low : ∀ (i : Nat) (n : Node), d.nodes[i]? = some n → n.var < d.level n.low
  var_lt_high : ∀ (i : Nat) (n : Node), d.nodes[i]? = some n → n.var < d.level n.high

/-- Every node of `d` is a node of `e`, under the same number. -/
def Extends (e d : Diagram) : Prop :=
  ∀ (i : Nat) (n : Node), d.nodes[i]? = some n → e.nodes[i]? = some n

theorem eval_of_node? {d : Diagram} {r : Ref} {n : Node} (inner : d.node? r = some n)
    (v : Valuation) :
    d.eval v r = if v n.var then d.eval v (d.high r) else d.eval v (d.low r) := by
  rw [eval]
  split <;> simp_all

theorem eval_of_terminal {d : Diagram} {r : Ref} (terminal : d.node? r = none) (v : Valuation) :
    d.eval v r = !r.isNegated := by
  rw [eval]
  split <;> simp_all

theorem node?_eq_none_of_index {r : Ref} (d : Diagram) (small : r.index < 2) :
    d.node? r = none := by
  simp [node?, small]

@[simp] theorem eval_one (d : Diagram) (v : Valuation) : d.eval v .one = true := by
  rw [eval_of_terminal (node?_eq_none_of_index d (by decide))]
  rfl

@[simp] theorem eval_zero (d : Diagram) (v : Valuation) : d.eval v .zero = false := by
  rw [eval_of_terminal (node?_eq_none_of_index d (by decide))]
  rfl

/-! ### Negation -/

theorem isNegated_neg {r : Ref} (known : 1 ≤ r.index) : (-r).isNegated = !r.isNegated := by
  have nonzero : r.raw ≠ 0 := fun h => by simp [Ref.index, h] at known
  simp only [Ref.isNegated, Ref.raw_neg, Bool.eq_not, ne_eq, decide_eq_decide]
  omega

theorem complementIf_not (r : Ref) (flag : Bool) :
    r.complementIf (!flag) = -r.complementIf flag := by
  cases flag <;> simp [Ref.complementIf]

@[simp] theorem node?_neg (d : Diagram) (r : Ref) : d.node? (-r) = d.node? r := by
  simp [node?]

theorem low_neg {d : Diagram} {r : Ref} (known : 1 ≤ r.index) : d.low (-r) = -d.low r := by
  simp only [low, node?_neg]
  split
  · rw [isNegated_neg known, complementIf_not]
  · rfl

theorem high_neg {d : Diagram} {r : Ref} (known : 1 ≤ r.index) : d.high (-r) = -d.high r := by
  simp only [high, node?_neg]
  split
  · rw [isNegated_neg known, complementIf_not]
  · rfl

theorem getElem?_of_node? {d : Diagram} {r : Ref} {n : Node} (inner : d.node? r = some n) :
    d.nodes[r.index - 2]? = some n := by
  unfold node? at inner
  split at inner
  · cases inner
  · exact inner

namespace Ordered

theorem one_le_low {d : Diagram} (ordered : d.Ordered) {r : Ref} (known : 1 ≤ r.index) :
    1 ≤ (d.low r).index := by
  unfold low
  split
  · rename_i inner
    simpa using ordered.has_low _ _ (getElem?_of_node? inner)
  · exact known

theorem one_le_high {d : Diagram} (ordered : d.Ordered) {r : Ref} (known : 1 ≤ r.index) :
    1 ≤ (d.high r).index := by
  unfold high
  split
  · rename_i inner
    simpa using ordered.has_high _ _ (getElem?_of_node? inner)
  · exact known

theorem eval_neg {d : Diagram} (ordered : d.Ordered) (v : Valuation) (r : Ref)
    (known : 1 ≤ r.index) : d.eval v (-r) = !d.eval v r := by
  cases inner : d.node? r with
  | none =>
    rw [eval_of_terminal ((node?_neg d r).trans inner), eval_of_terminal inner, isNegated_neg known]
  | some n =>
    have smaller := weight_lt_of_node? inner
    rw [eval_of_node? ((node?_neg d r).trans inner), eval_of_node? inner, low_neg known,
      high_neg known, ordered.eval_neg v (d.low r) (ordered.one_le_low known),
      ordered.eval_neg v (d.high r) (ordered.one_le_high known)]
    split <;> rfl
termination_by r.weight

end Ordered

/-! ### Growth -/

namespace Extends

theorem refl (d : Diagram) : d.Extends d := fun _ _ h => h

theorem trans {d e f : Diagram} (fe : f.Extends e) (ed : e.Extends d) : f.Extends d :=
  fun i n h => fe i n (ed i n h)

theorem size_le {d e : Diagram} (grown : e.Extends d) : d.nodes.size ≤ e.nodes.size := by
  by_cases empty : d.nodes.size = 0
  · omega
  · have last := grown (d.nodes.size - 1) _ (Array.getElem?_eq_getElem (by omega))
    have := (Array.getElem?_eq_some_iff.mp last).1
    omega

theorem node?_eq_of_lt {d e : Diagram} (grown : e.Extends d) {r : Ref}
    (bound : r.index < d.nodes.size + 2) : e.node? r = d.node? r := by
  by_cases small : r.index < 2
  · rw [node?_eq_none_of_index e small, node?_eq_none_of_index d small]
  · have inside : r.index - 2 < d.nodes.size := by omega
    simp only [node?, small, if_false]
    rw [grown _ _ (Array.getElem?_eq_getElem inside), Array.getElem?_eq_getElem inside]

theorem node?_eq {d e : Diagram} (grown : e.Extends d) {r : Ref} (has : d.Has r) :
    e.node? r = d.node? r := grown.node?_eq_of_lt has.2

theorem low_eq {d e : Diagram} (grown : e.Extends d) {r : Ref} (has : d.Has r) :
    e.low r = d.low r := by
  simp only [low, grown.node?_eq has]

theorem high_eq {d e : Diagram} (grown : e.Extends d) {r : Ref} (has : d.Has r) :
    e.high r = d.high r := by
  simp only [high, grown.node?_eq has]

end Extends

end Diagram

end ProgramAnalysis
