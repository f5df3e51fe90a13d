import ProgramAnalysis.Predicate.Registry

/-!
Regions as formulas and formulas as regions. A region over predicate variables means the formula
that reads every variable as its atom; a formula means the region that reads every atom as its
predicate, made on first use.
-/
namespace ProgramAnalysis

namespace Registry

def atomOf (ps : List Predicate) (d : Diagram) (v : Nat) : Option Formula :=
  (ps.find? fun p => d.var p.marker.ref = v).map (·.atom)

/-- The formula of a function, split at its first variable, with the formulas that are known so
far. -/
def concrete (ps : List Predicate) (d : Diagram) (r : Ref) (known : Std.HashMap Ref Formula) :
    Except Violation (Formula × Std.HashMap Ref Formula) :=
  match _inner : d.node? r with
  | none => .ok (.bool (r = .one), known)
  | some n =>
    match known[r]? with
    | some f => .ok (f, known)
    | none => do
      match atomOf ps d n.var with
      | none => throw (.notPredicateVariable (Region.toText ⟨r⟩))
      | some atom =>
        let (high, known) ← concrete ps d (d.high r) known
        let (low, known) ← concrete ps d (d.low r) known
        let f := Formula.disj [.conj [atom, high], .conj [atom.negate, low]]
        return (f, known.insert r f)
termination_by r.weight
decreasing_by
  · exact (Diagram.weight_lt_of_node? _inner).2
  · exact (Diagram.weight_lt_of_node? _inner).1

/-- Begins with no formulas that are known; those of earlier calls would not change the result. -/
def toFormula (reg : Registry) (r : Region) : Except Violation Formula := do
  return (← concrete reg.predicates reg.diagram r.ref ∅).1

mutual

/-- The region of a formula. Propositional variables have to name predicates. -/
def ofFormula : Formula → RegistryM Region
  | .bool v => return if v then .top else .bottom
  | .prop x => do
    match (← get).ofName? x with
    | some p => return p.marker
    | none => throw (.notPredicateVariable x)
  | .atom r a b => do return (← predicate (.atom r a b)).marker
  | .not f => do return (← ofFormula f).not
  | .nary c fs => ofArgs c fs (if c.unit then .top else .bottom)
  | .iff f g => do
    let a ← ofFormula f
    let b ← ofFormula g
    let both ← regions (a.and b)
    let neither ← regions (a.not.and b.not)
    regions (both.or neither)

def ofArgs (c : Connective) : List Formula → Region → RegistryM Region
  | [], acc => return acc
  | f :: fs, acc => do
    let r ← ofFormula f
    let acc ← regions (match c with
      | .and => acc.and r
      | .or => acc.or r)
    ofArgs c fs acc

end

end Registry

end ProgramAnalysis
