import ProgramAnalysis.Failure
import ProgramAnalysis.Program.Automaton

/-!
Options. Each group of options has defaults and reads the properties whose keys it knows, so that
one list of properties configures all groups. A later property replaces an earlier one, and the
first value that cannot be read is reported.
-/
namespace ProgramAnalysis

/-! ### Values

Numbers are ASCII digits, leading zeros allowed, after at most one sign. Blank characters are those with
the White_Space property of Unicode. -/

namespace Decimal

def isDigit (c : Char) : Bool := '0' ≤ c && c ≤ '9'

def value (digits : List Char) : Nat :=
  digits.foldl (fun n c => 10 * n + (c.toNat - '0'.toNat)) 0

/-- At least one digit and nothing else. -/
def digits? (cs : List Char) : Option Nat :=
  if !cs.isEmpty && cs.all isDigit then some (value cs) else none

def unsigned? (s : String) : Option Nat :=
  match s.toList with
  | '+' :: cs => digits? cs
  | cs => digits? cs

def signed? (s : String) : Option Int :=
  match s.toList with
  | '-' :: cs => (digits? cs).map fun n => -(n : Int)
  | '+' :: cs => (digits? cs).map Int.ofNat
  | cs => (digits? cs).map Int.ofNat

def word? (s : String) : Option Nat := (unsigned? s).filter (· < 0x10000000000000000)

def signedWord? (s : String) : Option Int :=
  (signed? s).filter fun i => -0x8000000000000000 ≤ i && i < 0x8000000000000000

end Decimal

namespace Blank

/-- The code points with the property, as ranges with both ends. -/
def ranges : List (Nat × Nat) :=
  [(0x9, 0xD), (0x20, 0x20), (0x85, 0x85), (0xA0, 0xA0), (0x1680, 0x1680), (0x2000, 0x200A),
    (0x2028, 0x2029), (0x202F, 0x202F), (0x205F, 0x205F), (0x3000, 0x3000)]

def isBlank (c : Char) : Bool :=
  ranges.any fun (first, last) => first ≤ c.toNat && c.toNat ≤ last

def trim (s : String) : String :=
  String.ofList ((s.toList.dropWhile isBlank).reverse.dropWhile isBlank).reverse

end Blank

/-! ### Groups -/

class OptionGroup (ω : Type) where
  defaults : ω
  /-- Applies one property; an unknown key changes nothing. -/
  set? : ω → String → String → Except Failure (Option ω)

namespace OptionGroup

def readBool (key value : String) : Except Failure Bool :=
  match value with
  | "true" => .ok true
  | "false" => .ok false
  | _ => .error (.configuration key (.notBool value))

def readWord (key value : String) : Except Failure Nat :=
  match Decimal.word? value with
  | some n => .ok n
  | none => .error (.configuration key (.notNumber value))

def readSignedWord (key value : String) : Except Failure Int :=
  match Decimal.signedWord? value with
  | some i => .ok i
  | none => .error (.configuration key (.notNumber value))

/-- The options of a list of properties. Blanks around a value do not count. -/
def ofProperties (ω : Type) [OptionGroup ω] (properties : List (String × String)) :
    Except Failure ω :=
  properties.foldlM (fun options (key, value) => do
    return (← set? options key (Blank.trim value)).getD options) defaults

end OptionGroup

open OptionGroup (readBool readWord)

structure FormulaOptions where
  /-- Add side conditions for `&` and `|`. -/
  bitwiseAxioms : Bool := false

instance : OptionGroup FormulaOptions where
  defaults := {}
  set? o key value := do
    if key = "cpa.predicate.useBitwiseAxioms" then
      return some { o with bitwiseAxioms := ← readBool key value }
    return none

structure SolverLimits where
  maxConstraints : Nat := 10000
  maxCaseSplits : Nat := 4096

instance : OptionGroup SolverLimits where
  defaults := {}
  set? o key value := do
    if key = "solver.maxConstraints" then
      return some { o with maxConstraints := ← readWord key value }
    if key = "solver.maxCaseSplits" then
      return some { o with maxCaseSplits := ← readWord key value }
    return none

structure AbstractionOptions where
  cartesian : Bool := false
  useCache : Bool := true
  /-- Write the queries of slow abstractions to files. -/
  dump : Bool := false
  /-- From how many milliseconds on an abstraction is slow. -/
  dumpThreshold : Nat := 10000
  directory : String := "output"

instance : OptionGroup AbstractionOptions where
  defaults := {}
  set? o key value := do
    if key = "cpa.predicate.abstraction.cartesian" then
      return some { o with cartesian := ← readBool key value }
    if key = "cpa.predicate.abs.useCache" then
      return some { o with useCache := ← readBool key value }
    if key = "cpa.predicate.abstraction.dumpHardQueries" then
      return some { o with dump := ← readBool key value }
    if key = "cpa.predicate.abstraction.dumpThresholdMillis" then
      return some { o with dumpThreshold := ← readWord key value }
    if key = "output.path" then return some { o with directory := value }
    return none

structure BlockOptions where
  rule : BlockRule := .functionsAndLoops
  /-- Check the path formula for satisfiability after every edge inside a block. -/
  satCheck : Bool := false

def BlockRule.ofName? : String → Option BlockRule
  | "everyEdge" => some .everyEdge
  | "loops" => some .loopHeads
  | "functionsAndLoops" => some .functionsAndLoops
  | _ => none

instance : OptionGroup BlockOptions where
  defaults := {}
  set? o key value := do
    if key = "cpa.predicate.blk" then
      match BlockRule.ofName? value with
      | some rule => return some { o with rule }
      | none => throw (.configuration key (.notBlockRule value))
    if key = "cpa.predicate.satCheck" then
      return some { o with satCheck := ← readBool key value }
    return none

structure CompositeOptions where
  /-- The reached set is divided by location. -/
  specialized : Bool := false

instance : OptionGroup CompositeOptions where
  defaults := {}
  set? o key value := do
    if key = "cpa.useSpecializedReachedSet" then
      return some { o with specialized := ← readBool key value }
    return none

structure AnalysisOptions where
  formula : FormulaOptions
  limits : SolverLimits
  abstraction : AbstractionOptions
  block : BlockOptions

namespace AnalysisOptions

/-- All groups from one list of properties. -/
def ofProperties (properties : List (String × String)) : Except Failure AnalysisOptions := do
  return {
    formula := ← OptionGroup.ofProperties FormulaOptions properties
    limits := ← OptionGroup.ofProperties SolverLimits properties
    abstraction := ← OptionGroup.ofProperties AbstractionOptions properties
    block := ← OptionGroup.ofProperties BlockOptions properties }

end AnalysisOptions

end ProgramAnalysis
