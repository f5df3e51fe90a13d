import ProgramAnalysis.Diagram.Ref
import ProgramAnalysis.Table.DirectMapped

/-!
Decision diagrams with complemented references. A diagram owns the nodes of many functions. Each
node tests a variable and has two smaller-numbered children; nodes are hash consed in the unique
table, and the high child is never complemented, so there is one node per variable and pair of
children. Variables are numbered from 1 and tested in increasing order. Results of operations are
remembered in a direct-mapped computed table.

The invariants that every operation keeps are fields of the type. The order of the variables along
a path is not one of them: `mkNode` takes any variable.
-/
namespace ProgramAnalysis

structure Node where
  var : Nat
  low : Ref
  high : Ref
  deriving DecidableEq, Hashable, Repr

/-- No test is redundant and the sign is not on the high child. -/
structure Node.Reduced (n : Node) : Prop where
  var_ne_zero : n.var ≠ 0
  high_regular : n.high.isNegated = false
  low_ne_high : n.low ≠ n.high

/-- The operations whose results are remembered. -/
inductive Operation where
  | ite (f g h : Ref)
  | exists (f : Ref) (var : Nat)
  deriving DecidableEq, Repr

/-- The tag `2 ^ 40` of a quantification is no reference. -/
instance : SlotKey Operation where
  number
    | .ite f g h => Pairing.triple f.toWord g.toWord h.toWord
    | .exists f v => Pairing.triple f.toWord v.toUInt64 0x10000000000

/-- Inner node number `i + 2` is `nodes[i]`; number 1 is the terminal. -/
structure Diagram where
  nodes : Array Node
  unique : Std.HashMap Node Nat
  computed : DirectMapped Operation Ref
  /-- The largest variable in use. -/
  vars : Nat
  /-- Children are older than their parents. -/
  children_lt : ∀ (i : Nat) (n : Node),
    nodes[i]? = some n → n.low.index < i + 2 ∧ n.high.index < i + 2
  reduced : ∀ (i : Nat) (n : Node), nodes[i]? = some n → n.Reduced
  /-- The unique table is the inverse of the node array. -/
  unique_iff : ∀ (n : Node) (i : Nat), unique[n]? = some i ↔ nodes[i]? = some n

abbrev DiagramM := Checked Diagram

namespace Diagram

/-- The diagram without inner nodes, with a computed table of `2 ^ bits` slots. -/
def ofBits (bits : Nat) : Except Violation Diagram := do
  let computed ← DirectMapped.ofBits bits
  return {
    nodes := #[], unique := ∅, computed, vars := 0
    children_lt := by simp
    reduced := by simp
    unique_iff := by simp }

/-- The number of nodes, with the terminal. -/
def size (d : Diagram) : Nat := d.nodes.size + 1

/-- The inner node of a reference; the terminal has none. -/
def node? (d : Diagram) (r : Ref) : Option Node :=
  if r.index < 2 then none else d.nodes[r.index - 2]?

/-- The variable tested at the root, 0 for a constant. -/
def var (d : Diagram) (r : Ref) : Nat :=
  match d.node? r with
  | some n => n.var
  | none => 0

/-- Constants are below every variable. -/
def bottomLevel : Nat := 0xffffffff

/-- The place of the root in the order of variables. -/
def level (d : Diagram) (r : Ref) : Nat :=
  match d.node? r with
  | some n => n.var
  | none => bottomLevel

/-- The cofactor where the root's variable is false; a constant is its own cofactor. -/
def low (d : Diagram) (r : Ref) : Ref :=
  match d.node? r with
  | some n => n.low.complementIf r.isNegated
  | none => r

/-- The cofactor where the root's variable is true. -/
def high (d : Diagram) (r : Ref) : Ref :=
  match d.node? r with
  | some n => n.high.complementIf r.isNegated
  | none => r

theorem index_lt_of_node? {d : Diagram} {r : Ref} {n : Node} (h : d.node? r = some n) :
    n.low.index < r.index ∧ n.high.index < r.index ∧ 2 ≤ r.index := by
  unfold node? at h
  split at h
  · cases h
  · have := d.children_lt _ _ h
    omega

@[simp] theorem index_complementIf (r : Ref) (flag : Bool) :
    (r.complementIf flag).index = r.index := by
  cases flag <;> simp [Ref.complementIf]

/-- A node is looked up in the unique table and made if it is missing. -/
def place (n : Node) (reduced : n.Reduced) : DiagramM Ref := fun d =>
  match known : d.unique[n]? with
  | some i => .ok (.node (i + 2), d)
  | none =>
    if d.nodes.size + 2 < 0x7fffffff then
      if older : n.low.index < d.nodes.size + 2 ∧ n.high.index < d.nodes.size + 2 then
        .ok (.node (d.nodes.size + 2), { d with
          nodes := d.nodes.push n
          unique := d.unique.insert n d.nodes.size
          vars := max d.vars n.var
          children_lt := by
            intro i m h
            rw [Array.getElem?_push] at h
            split at h
            · cases h
              rename_i hi
              subst hi
              exact older
            · exact d.children_lt i m h
          reduced := by
            intro i m h
            rw [Array.getElem?_push] at h
            split at h
            · cases h
              exact reduced
            · exact d.reduced i m h
          unique_iff := by
            intro m i
            rw [Std.HashMap.getElem?_insert, Array.getElem?_push]
            have fresh : ∀ j, d.nodes[j]? ≠ some n := fun j h => by
              rw [← d.unique_iff, known] at h
              cases h
            by_cases hn : n = m
            · subst hn
              by_cases hi : i = d.nodes.size
              · simp [hi]
              · simp [hi, fresh i, Ne.symm hi]
            · by_cases hi : i = d.nodes.size
              · subst hi
                simp [hn, d.unique_iff]
              · simp [hn, hi, d.unique_iff] })
      else .error .illFormed
    else .error .nodesExhausted

/-- The node that tests `v`: equal children need no test, and a sign on the high child moves to the
result. -/
def mkNode (v : Nat) (low high : Ref) : DiagramM Ref :=
  if hv : v = 0 then throw .zeroVariable
  else if same : low = high then return low
  else if neg : high.isNegated then
    if reg : (-high).isNegated then throw .illFormed
    else do
      let r ← place ⟨v, -low, -high⟩ ⟨hv, by simpa using reg, fun h => same (by
        have := congrArg Neg.neg h
        simpa using this)⟩
      return -r
  else place ⟨v, low, high⟩ ⟨hv, by simpa using neg, same⟩

def mkVar (v : Nat) : DiagramM Ref := mkNode v .zero .one

def newVar : DiagramM Nat := fun d =>
  if d.vars + 1 < 0x100000000 then .ok (d.vars + 1, { d with vars := d.vars + 1 })
  else .error .outOfRange

def remembered? (op : Operation) : DiagramM (Option Ref) := fun d =>
  let (answer, computed) := d.computed.get? op
  .ok (answer, { d with computed })

def remember (op : Operation) (r : Ref) : DiagramM Unit := fun d =>
  .ok ((), { d with computed := d.computed.insert op r })

def toText (d : Diagram) : String :=
  s!"Bdd \x7b nodes: {d.size}, vars: {d.vars}, cache_hits: {d.computed.hits}, " ++
    s!"cache_misses: {d.computed.misses} \x7d"

end Diagram

end ProgramAnalysis
