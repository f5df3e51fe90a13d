import ProgramAnalysis.Ssa

/-!
Integer terms, with the operators and connectives that formulas share with program expressions.
Program variables carry an optional index: a term without indices speaks about any moment of an
execution, `instantiate` fixes the moment. Terms are never simplified.
-/
namespace ProgramAnalysis

/-- The binary operators of terms and of program expressions. -/
inductive ArithOp where
  | add | sub | mul | div | rem | bitAnd | bitOr | bitXor | shl | shr
  deriving DecidableEq, Repr

namespace ArithOp

def all : List ArithOp := [add, sub, mul, div, rem, bitAnd, bitOr, bitXor, shl, shr]

/-- Operators on the binary digits of their operands. -/
def isBitwise : ArithOp → Bool
  | bitAnd | bitOr | bitXor | shl | shr => true
  | add | sub | mul | div | rem => false

def name : ArithOp → String
  | add => "+"
  | sub => "-"
  | mul => "*"
  | div => "div"
  | rem => "mod"
  | bitAnd => "bvand"
  | bitOr => "bvor"
  | bitXor => "bvxor"
  | shl => "bvshl"
  | shr => "bvashr"

end ArithOp

/-- Conjunction and disjunction, of formulas and of program expressions. -/
inductive Connective where
  | and | or
  deriving DecidableEq, Repr

namespace Connective

def name : Connective → String
  | and => "and"
  | or => "or"

/-- The value of no arguments, which may be left out of a list; the other value decides alone. -/
def unit : Connective → Bool
  | and => true
  | or => false

end Connective

/-- A program variable, at a fixed index or at none. -/
structure TermVar where
  name : String
  index : Option Nat
  deriving DecidableEq, Repr

namespace TermVar

def toText (x : TermVar) : String :=
  match x.index with
  | some i => s!"{x.name}@{i}"
  | none => x.name

/-- A variable that has an index keeps it. -/
def instantiate (s : SsaMap) (x : TermVar) : TermVar :=
  match x.index with
  | some _ => x
  | none => ⟨x.name, some (s.index x.name)⟩

def uninstantiate (x : TermVar) : TermVar := ⟨x.name, none⟩

end TermVar

inductive Term where
  | const (value : Int)
  | var (x : TermVar)
  | neg (t : Term)
  | bitNot (t : Term)
  | binary (op : ArithOp) (a b : Term)
  deriving DecidableEq, Repr

namespace Term

def symbolic (name : String) : Term := .var ⟨name, none⟩

def indexed (name : String) (index : Nat) : Term := .var ⟨name, some index⟩

def const? : Term → Option Int
  | .const c => some c
  | _ => none

def toText : Term → String
  | .const c => if c < 0 then s!"(- {c.natAbs})" else toString c
  | .var x => x.toText
  | .neg t => "(- " ++ t.toText ++ ")"
  | .bitNot t => "(bvnot " ++ t.toText ++ ")"
  | .binary op a b => "(" ++ op.name ++ " " ++ a.toText ++ " " ++ b.toText ++ ")"

def mapVars (f : TermVar → TermVar) : Term → Term
  | .const c => .const c
  | .var x => .var (f x)
  | .neg t => .neg (t.mapVars f)
  | .bitNot t => .bitNot (t.mapVars f)
  | .binary op a b => .binary op (a.mapVars f) (b.mapVars f)

def instantiate (s : SsaMap) (t : Term) : Term := t.mapVars (TermVar.instantiate s)

def uninstantiate (t : Term) : Term := t.mapVars TermVar.uninstantiate

/-- The subterms `a & b` and `a | b`, each after its own subterms. -/
def masks : Term → List Term
  | .const _ => []
  | .var _ => []
  | .neg t => t.masks
  | .bitNot t => t.masks
  | .binary op a b =>
    a.masks ++ b.masks ++
      (if op = .bitAnd ∨ op = .bitOr then [.binary op a b] else [])

end Term

end ProgramAnalysis
