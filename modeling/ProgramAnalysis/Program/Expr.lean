import ProgramAnalysis.Formula.Term

/-!
Expressions of programs. Values are 64-bit integers; comparisons and logical operators have the
value 0 or 1.
-/
namespace ProgramAnalysis

def ArithOp.symbol : ArithOp → String
  | add => "+"
  | sub => "-"
  | mul => "*"
  | div => "/"
  | rem => "%"
  | bitAnd => "&"
  | bitOr => "|"
  | bitXor => "^"
  | shl => "<<"
  | shr => ">>"

def ArithOp.ofSymbol? (s : String) : Option ArithOp := ArithOp.all.find? (·.symbol = s)

inductive Comparison where
  | eq | ne | lt | le | gt | ge
  deriving DecidableEq, Repr

namespace Comparison

def symbol : Comparison → String
  | eq => "=="
  | ne => "!="
  | lt => "<"
  | le => "<="
  | gt => ">"
  | ge => ">="

def all : List Comparison := [eq, ne, lt, le, gt, ge]

def ofSymbol? (s : String) : Option Comparison := all.find? (·.symbol = s)

def holds (c : Comparison) (a b : Int) : Bool :=
  match c with
  | eq => a = b
  | ne => a ≠ b
  | lt => a < b
  | le => a ≤ b
  | gt => b < a
  | ge => b ≤ a

/-- The comparison that holds exactly when this one does not. -/
def complement : Comparison → Comparison
  | eq => ne
  | ne => eq
  | lt => ge
  | le => gt
  | gt => le
  | ge => lt

/-- The same comparison with its sides exchanged. -/
def swap : Comparison → Comparison
  | eq => eq
  | ne => ne
  | lt => gt
  | le => ge
  | gt => lt
  | ge => le

theorem holds_complement (c : Comparison) (a b : Int) :
    c.complement.holds a b = !c.holds a b := by
  cases c <;> rw [Bool.eq_iff_iff] <;> simp [complement, holds]

theorem holds_swap (c : Comparison) (a b : Int) : c.swap.holds a b = c.holds b a := by
  cases c with
  | eq => simp [swap, holds, @eq_comm Int a b]
  | ne => simp [swap, holds, @eq_comm Int a b]
  | _ => rfl

end Comparison

inductive Expr where
  | var (name : String)
  | const (value : Int)
  /-- Any value, such as an input. -/
  | nondet
  /-- What a pointer points to. -/
  | deref (e : Expr)
  | neg (e : Expr)
  | not (e : Expr)
  | bitNot (e : Expr)
  | arith (op : ArithOp) (a b : Expr)
  | compare (c : Comparison) (a b : Expr)
  | logic (c : Connective) (a b : Expr)
  deriving DecidableEq, Repr

def Connective.symbol : Connective → String
  | and => "&&"
  | or => "||"

def Connective.ofSymbol? (s : String) : Option Connective := [and, or].find? (·.symbol = s)

namespace Expr

def binary? (symbol : String) : Option (Expr → Expr → Expr) :=
  (ArithOp.ofSymbol? symbol).map arith <|> (Comparison.ofSymbol? symbol).map compare <|>
    (Connective.ofSymbol? symbol).map logic

def toText : Expr → String
  | .var x => x
  | .const c => toString c
  | .nondet => "nondet()"
  | .deref e => "*" ++ e.toText
  | .neg e => "-" ++ e.toText
  | .not e => "!" ++ e.toText
  | .bitNot e => "~" ++ e.toText
  | .arith op a b => "(" ++ a.toText ++ " " ++ op.symbol ++ " " ++ b.toText ++ ")"
  | .compare c a b => "(" ++ a.toText ++ " " ++ c.symbol ++ " " ++ b.toText ++ ")"
  | .logic c a b => "(" ++ a.toText ++ " " ++ c.symbol ++ " " ++ b.toText ++ ")"

end Expr

end ProgramAnalysis
