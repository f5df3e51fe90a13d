import ProgramAnalysis.Abstraction.Abstractor
import ProgramAnalysis.Formula.Atoms

/-!
The abstraction of a path: the strongest region over given predicates that contains every state at
the end of the path. The Boolean abstraction is the set of all combinations of predicate values that
occur; the Cartesian abstraction knows of each predicate on its own whether it holds or fails.
-/
namespace ProgramAnalysis

/-! ### Files for formulas that took long: their names and their contents -/

namespace Dump

/-- A path below a directory. A path that starts at the root is kept as it is, and a directory that
ends in a slash needs no other. -/
def below (directory file : String) : String :=
  if file.startsWith "/" ∨ directory.isEmpty then file
  else if directory.endsWith "/" then directory ++ file
  else directory ++ "/" ++ file

def paddedNumber (n : Nat) : String :=
  let digits := toString n
  String.ofList (List.replicate (4 - digits.length) '0') ++ digits

def fileName (kind : String) (number : Nat) (part : String) (sub : Nat) : String :=
  s!"{kind}.{paddedNumber number}.{part}.{sub}.smt2"

def assertion (f : Formula) : String := s!"(assert {f.toText})\n"

end Dump

namespace Abstractor

def ofRegion (r : Region) (s : SsaMap) (block : PathFormula) : AbstractorM Abstraction := do
  let formula ← Attempt.ofOutcome (ExceptT.lift ((← get).registry.toFormula r))
  return ⟨r, formula, formula.instantiate s, block⟩

/-! ### Cartesian -/

def imprecisionWarning : String :=
  "Using cartesian abstraction when formulas contain disjunctions may be imprecise. " ++
    "This might lead to failing refinements."

/-- Warns once of a formula that is no conjunction of literals. -/
def warnOfDisjunctions (f : Formula) : AbstractorM Unit := do
  if !(← get).memory.warned && !f.isConjunctive then
    recordIn fun m => { m with warned := true, warnings := m.warnings ++ [imprecisionWarning] }

/-- Asks the solver whether a predicate holds or fails under the assertions of a prover. -/
def verdictOf (prover : Prover) (s : SsaMap) (p : Predicate) : AbstractorM Verdict := do
  let f := p.atom.instantiate s
  if ← ask (prover.push f.negate).isUnsat then return .holds
  if ← ask (prover.push f).isUnsat then return .fails
  return .unknown

/-- The verdict on a predicate under the formula `f`, remembered or new. -/
def verdict (f : Formula) (prover : Prover) (s : SsaMap) (p : Predicate) :
    AbstractorM Verdict := do
  let useCache := (← get).settings.abstraction.useCache
  let known := (← get).memory.verdicts
  match if useCache then known.lookup (f, p.id) else none with
  | some v => return v
  | none =>
    let v ← verdictOf prover s p
    if useCache then recordIn fun m => { m with verdicts := ((f, p.id), v) :: m.verdicts }
    return v

def narrow (r : Region) (p : Predicate) : Verdict → DiagramM Region
  | .holds => r.and p.marker
  | .fails => r.and p.marker.not
  | .unknown => return r

def cartesian (f : Formula) (s : SsaMap) (ps : List Predicate) : AbstractorM Region := do
  let prover := (← ask Prover.start).push f
  if ← ask prover.isUnsat then return .bottom
  warnOfDisjunctions f
  ps.foldlM (fun r p => do regionsOnly (narrow r p (← verdict f prover s p))) .top

/-! ### Boolean -/

/-- The predicates that can be true. -/
def relevant (ps : List Predicate) : List Predicate := ps.filter (·.atom ≠ .bool false)

/-- The symbol of a predicate is equivalent to its atom at the indices `s`. -/
def definition (s : SsaMap) (p : Predicate) : Formula := .equiv p.symbol (p.atom.instantiate s)

def boolean (f : Formula) (s : SsaMap) (ps : List Predicate) : AbstractorM Region := do
  let important := relevant ps
  let f := Formula.conj (f :: important.map (definition s))
  if important.isEmpty then
    count fun c => { c with satChecks := c.satChecks + 1 }
    return if ← ask (Solver.isUnsat f) then .bottom else .top
  let prover := (← ask Prover.start).push f
  let answer ← solve (prover.allSat (important.map fun p => (p.symbol, p.marker)))
  count fun c => { c with
    models := c.models + answer.count
    maxModels := Nat.max c.maxModels answer.count }
  return answer.region

/-! ### Remembered results -/

/-- A result from the memory: the same query, or a formula that is known to be unsatisfiable. -/
def remembered? (m : AbstractionMemory) (q : AbstractionQuery) (path : Formula) (p : PathFormula) :
    Option Abstraction :=
  match m.results.lookup q with
  | some a => some (a.reinstantiate p)
  | none =>
    if m.unsatisfiable.contains path || m.unsatisfiable.contains q.formula then some (.bottom p)
    else none

def keep (q : AbstractionQuery) (a : Abstraction) (m : AbstractionMemory) : AbstractionMemory :=
  { m with
    results := (q, a) :: m.results
    unsatisfiable := if a.isFalse then q.formula :: m.unsatisfiable else m.unsatisfiable }

def dumpsOf (directory : String) (number : Nat) (input : Formula) (ps : List Predicate)
    (a : Abstraction) : List (String × String) :=
  let file (part : String) := Dump.below directory (Dump.fileName "abstraction" number part 0)
  [(file "input", Dump.assertion input),
    (file "predicates", "\n".intercalate (ps.map Predicate.toText)),
    (file "result", Dump.assertion a.instantiated)]

/-- Drops a predicate that follows itself. -/
def withoutRepeats : List Predicate → List Predicate
  | p :: q :: ps => if p.id = q.id then withoutRepeats (q :: ps) else p :: withoutRepeats (q :: ps)
  | ps => ps

def recorded (o : AbstractionOptions) (number : Nat) (q : AbstractionQuery) (ps : List Predicate)
    (a : Abstraction) (m : AbstractionMemory) : AbstractionMemory :=
  let m := if o.useCache then keep q a m else m
  -- Every computation takes longer than no time and is over within a millisecond.
  if o.dump && o.dumpThreshold = 0 then
    { m with dumps := m.dumps ++ dumpsOf o.directory number q.formula ps a }
  else m

def regionOf (f : Formula) (s : SsaMap) (ps : List Predicate) : AbstractorM Region := do
  if (← get).settings.abstraction.cartesian then cartesian f s ps else boolean f s ps

def compute (number : Nat) (q : AbstractionQuery) (p : PathFormula) (ps : List Predicate) :
    AbstractorM Abstraction := do
  let r ← regionOf q.formula p.ssa ps
  let a ← ofRegion r p.ssa p
  recordIn (recorded (← get).settings.abstraction number q ps a)
  return a

/-- The abstraction of the path `p` that begins in the abstraction `a`. The order of the predicates
does not matter. -/
def build (a : Abstraction) (p : PathFormula) (ps : List Predicate) : AbstractorM Abstraction := do
  count fun c => { c with computations := c.computations + 1 }
  let number := (← get).counters.computations
  if ps.isEmpty then
    count fun c => { c with trivial := c.trivial + 1 }
    return .top p
  let ps := withoutRepeats (Predicate.inOrder ps)
  let settings := (← get).settings
  let path := strengthened settings.formula p.formula
  let q : AbstractionQuery := ⟨reachable settings.formula a p, ps.map (·.id)⟩
  let memory := (← get).memory
  match if settings.abstraction.useCache then remembered? memory q path p else none with
  | some a =>
    count fun c => { c with cached := c.cached + 1 }
    return a
  | none => compute number q p ps

end Abstractor

end ProgramAnalysis
