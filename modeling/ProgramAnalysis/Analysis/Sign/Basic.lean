/-!
Signs. A sign is a set of the three atoms negative, zero and positive; it stands for the numbers
whose atom it contains. Lattice operations are set operations, and an arithmetic operation collects
what it does to the atoms of its operands.
-/
namespace ProgramAnalysis

inductive SignAtom where
  | negative | zero | positive
  deriving DecidableEq, Repr

namespace SignAtom

def all : List SignAtom := [negative, zero, positive]

def ofInt (v : Int) : SignAtom := if v < 0 then negative else if v = 0 then zero else positive

end SignAtom

structure Sign where
  negative : Bool
  zero : Bool
  positive : Bool
  deriving DecidableEq, Repr

namespace Sign

def bottom : Sign := ⟨false, false, false⟩

def neg : Sign := ⟨true, false, false⟩

def null : Sign := ⟨false, true, false⟩

def pos : Sign := ⟨false, false, true⟩

def nonPos : Sign := ⟨true, true, false⟩

def nonNeg : Sign := ⟨false, true, true⟩

def nonZero : Sign := ⟨true, false, true⟩

def top : Sign := ⟨true, true, true⟩

def all : List Sign := [bottom, neg, null, pos, nonPos, nonNeg, nonZero, top]

def contains (s : Sign) : SignAtom → Bool
  | .negative => s.negative
  | .zero => s.zero
  | .positive => s.positive

def ofAtom : SignAtom → Sign
  | .negative => neg
  | .zero => null
  | .positive => pos

def ofInt (v : Int) : Sign := ofAtom (.ofInt v)

def containsInt (s : Sign) (v : Int) : Bool := s.contains (.ofInt v)

def atoms (s : Sign) : List SignAtom := SignAtom.all.filter s.contains

def le (s t : Sign) : Bool :=
  (!s.negative || t.negative) && (!s.zero || t.zero) && (!s.positive || t.positive)

def join (s t : Sign) : Sign :=
  ⟨s.negative || t.negative, s.zero || t.zero, s.positive || t.positive⟩

def meet (s t : Sign) : Sign :=
  ⟨s.negative && t.negative, s.zero && t.zero, s.positive && t.positive⟩

/-! ### Arithmetic -/

/-- Collects an operation on atoms over all pairs of atoms. -/
def lift (op : SignAtom → SignAtom → Sign) (s t : Sign) : Sign :=
  (s.atoms.flatMap fun a => t.atoms.map (op a)).foldl join bottom

def negate (s : Sign) : Sign := ⟨s.positive, s.zero, s.negative⟩

/-- A sum of numbers of different signs may be anything. -/
def addAtoms : SignAtom → SignAtom → Sign
  | .zero, b => ofAtom b
  | a, .zero => ofAtom a
  | a, b => if a = b then ofAtom a else top

def mulAtoms : SignAtom → SignAtom → Sign
  | .zero, _ => null
  | _, .zero => null
  | a, b => if a = b then pos else neg

/-- Division goes toward zero, and division by zero has no result. -/
def divAtoms : SignAtom → SignAtom → Sign
  | _, .zero => bottom
  | .zero, _ => null
  | a, b => if a = b then nonNeg else nonPos

/-- A remainder has the sign of the dividend. -/
def remAtoms : SignAtom → SignAtom → Sign
  | _, .zero => bottom
  | .zero, _ => null
  | a, _ => (ofAtom a).join null

def add : Sign → Sign → Sign := lift addAtoms

def sub (s t : Sign) : Sign := s.add t.negate

def mul : Sign → Sign → Sign := lift mulAtoms

def div : Sign → Sign → Sign := lift divAtoms

def rem : Sign → Sign → Sign := lift remAtoms

/-- The truth value of "is zero". -/
def logicalNot (s : Sign) : Sign :=
  if s = null then pos else if s.zero then nonNeg else null

/-! ### Text -/

def toText (s : Sign) : String :=
  match s.negative, s.zero, s.positive with
  | false, false, false => "⊥"
  | true, false, false => "-"
  | false, true, false => "0"
  | false, false, true => "+"
  | true, true, false => "≤0"
  | false, true, true => "≥0"
  | true, false, true => "≠0"
  | true, true, true => "⊤"

def name (s : Sign) : String :=
  match s.negative, s.zero, s.positive with
  | false, false, false => "Bottom"
  | true, false, false => "Neg"
  | false, true, false => "Zero"
  | false, false, true => "Pos"
  | true, true, false => "NonPos"
  | false, true, true => "NonNeg"
  | true, false, true => "NonZero"
  | true, true, true => "Top"

def ofName? (x : String) : Option Sign := all.find? (·.name = x)

end Sign

end ProgramAnalysis
