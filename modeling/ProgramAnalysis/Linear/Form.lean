import ProgramAnalysis.Numeric.Machine
import ProgramAnalysis.Violation

/-!
Linear forms: sums of numbered variables with integer coefficients, and a constant. The
coefficients are listed by increasing variable and none is zero. Coefficients and constants are
128-bit numbers; an operation that would leave the range has no value.
-/
namespace ProgramAnalysis

structure LinearForm where
  coeffs : List (Nat × Int)
  constant : Int
  deriving DecidableEq, Repr

namespace LinearForm

def wide? (i : Int) : Option Int := Machine.checked Machine.bound128 i

def ofConst (c : Int) : LinearForm := ⟨[], c⟩

def ofVar (x : Nat) : LinearForm := ⟨[(x, 1)], 0⟩

/-- The value of a form without variables. -/
def const? (e : LinearForm) : Option Int := if e.coeffs.isEmpty then some e.constant else none

def coeff (e : LinearForm) (x : Nat) : Int := (e.coeffs.lookup x).getD 0

/-- Adds `factor` times the second list of coefficients to the first. -/
def addCoeffs? (factor : Int) : List (Nat × Int) → List (Nat × Int) → Option (List (Nat × Int))
  | cs, [] => some cs
  | [], (y, d) :: ds => do
    let e ← wide? (d * factor)
    let rest ← addCoeffs? factor [] ds
    return if e = 0 then rest else (y, e) :: rest
  | (x, c) :: cs, (y, d) :: ds =>
    if x < y then do return (x, c) :: (← addCoeffs? factor cs ((y, d) :: ds))
    else do
      let e ← wide? (d * factor)
      if y < x then
        let rest ← addCoeffs? factor ((x, c) :: cs) ds
        return if e = 0 then rest else (y, e) :: rest
      else
        let s ← wide? (c + e)
        let rest ← addCoeffs? factor cs ds
        return if s = 0 then rest else (x, s) :: rest

/-- The form `a + factor * b`. -/
def addScaled? (a b : LinearForm) (factor : Int) : Option LinearForm := do
  let coeffs ← addCoeffs? factor a.coeffs b.coeffs
  let scaled ← wide? (b.constant * factor)
  return ⟨coeffs, ← wide? (a.constant + scaled)⟩

def scale? (e : LinearForm) (factor : Int) : Option LinearForm := (ofConst 0).addScaled? e factor

def sub? (a b : LinearForm) : Option LinearForm := a.addScaled? b (-1)

def addConst? (e : LinearForm) (c : Int) : Option LinearForm := do
  return ⟨e.coeffs, ← wide? (e.constant + c)⟩

def erase (e : LinearForm) (x : Nat) : LinearForm :=
  ⟨e.coeffs.filter fun (y, _) => y ≠ x, e.constant⟩

/-- Puts a form in the place of a variable. -/
def substitute? (x : Nat) (replacement e : LinearForm) : Option LinearForm :=
  if e.coeff x = 0 then some e else (e.erase x).addScaled? replacement (e.coeff x)

/-- The greatest common divisor of the coefficients. The smallest number has no absolute value. -/
def gcd (e : LinearForm) : Except Violation Nat :=
  if e.coeffs.any fun (_, c) => c = -Machine.bound128 then .error .outOfRange
  else .ok (e.coeffs.foldl (fun g (_, c) => Nat.gcd g c.natAbs) 0)

/-- The first variable whose coefficient is 1 or -1, with this coefficient. -/
def unit? (e : LinearForm) : Option (Nat × Int) :=
  e.coeffs.find? fun (_, c) => c = 1 || c = -1

/-- Coefficients are compared in order, variable before coefficient; a list comes before its
continuations. -/
def compareCoeffs : List (Nat × Int) → List (Nat × Int) → Ordering
  | [], [] => .eq
  | [], _ :: _ => .lt
  | _ :: _, [] => .gt
  | (x, c) :: cs, (y, d) :: ds =>
    ((compare x y).then (compare c d)).then (compareCoeffs cs ds)

/-- The order in which forms are worked through. -/
def precedes (a b : LinearForm) : Bool :=
  ((compareCoeffs a.coeffs b.coeffs).then (compare a.constant b.constant)).isLE

/-- Drops repetitions of neighbours. -/
def dedup : List LinearForm → List LinearForm
  | [] => []
  | e :: es => if es.head? = some e then dedup es else e :: dedup es

/-- The forms in order, each once. -/
def sorted (es : List LinearForm) : List LinearForm := dedup (es.mergeSort precedes)

end LinearForm

end ProgramAnalysis
