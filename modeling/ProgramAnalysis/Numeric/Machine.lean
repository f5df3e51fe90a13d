import ProgramAnalysis.Formula.Term
import ProgramAnalysis.Numeric.Bitwise

/-!
Arithmetic on signed machine numbers, the numbers from `-bound` to `bound - 1`. An operation whose
exact result is no machine number has no value, and neither has a division by zero or a shift by
less than 0 or more than 63.
-/
namespace ProgramAnalysis

namespace Machine

def bound64 : Int := 0x8000000000000000

def bound128 : Int := 0x80000000000000000000000000000000

def fits (bound i : Int) : Bool := -bound ≤ i && i < bound

def checked (bound i : Int) : Option Int := if fits bound i then some i else none

/-- Division goes toward zero and the remainder has the sign of the dividend. The remainder exists
only where the quotient does. A left shift drops the high digits, a right shift rounds down. -/
def compute? (bound : Int) (op : ArithOp) (x y : Int) : Option Int :=
  match op with
  | .add => checked bound (x + y)
  | .sub => checked bound (x - y)
  | .mul => checked bound (x * y)
  | .div => if y = 0 then none else checked bound (x.tdiv y)
  | .rem => if y = 0 then none else (checked bound (x.tdiv y)).map fun _ => x.tmod y
  | .bitAnd => some (Bitwise.and x y)
  | .bitOr => some (Bitwise.or x y)
  | .bitXor => some (Bitwise.xor x y)
  | .shl => if 0 ≤ y ∧ y < 64 then some (Int.bmod (x <<< y.toNat) (2 * bound.toNat)) else none
  | .shr => if 0 ≤ y ∧ y < 64 then some (x >>> y.toNat) else none

end Machine

end ProgramAnalysis
