/-!
Signed references to diagram nodes. The sign says whether the function of the node is complemented,
so negation needs no node. References are 32-bit numbers: `ofWord` reads a word as a signed one, and
`negate?` and `regular?` refuse the one number whose negation does not fit.
-/
namespace ProgramAnalysis

structure Ref where
  raw : Int
  deriving DecidableEq, Hashable, Repr

namespace Ref

/-- The uncomplemented reference to a node; node numbers stay below `2 ^ 31`. -/
def node (index : Nat) : Ref := ⟨index⟩

/-- A 32-bit word read as a signed number. -/
def ofWord (word : Nat) : Ref := ⟨Int.bmod word 0x100000000⟩

def isNegated (r : Ref) : Bool := r.raw < 0

def index (r : Ref) : Nat := r.raw.natAbs

instance : Neg Ref := ⟨fun r => ⟨-r.raw⟩⟩

/-- The smallest 32-bit number has no negation. -/
def negate? (r : Ref) : Option Ref := if r.raw = -0x80000000 then none else some (-r)

def regular? (r : Ref) : Option Ref := if r.isNegated then r.negate? else some r

def toWord (r : Ref) : UInt64 :=
  if r.raw < 0 then (0x100000000 - r.index).toUInt64 else r.index.toUInt64

def complementIf (r : Ref) (flag : Bool) : Ref := if flag then -r else r

/-- The constant true is the terminal node, the constant false its complement. -/
def one : Ref := node 1

def zero : Ref := -one

def toText (r : Ref) : String :=
  (if r.isNegated then "~" else "") ++ "@" ++ toString r.index

@[simp] theorem neg_neg (r : Ref) : - -r = r :=
  congrArg Ref.mk (Int.neg_neg r.raw)

@[simp] theorem raw_neg (r : Ref) : (-r).raw = -r.raw := rfl

@[simp] theorem index_neg (r : Ref) : (-r).index = r.index := by
  simp [index]

@[simp] theorem index_node (i : Nat) : (node i).index = i := rfl

end Ref

end ProgramAnalysis
