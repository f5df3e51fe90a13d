/-!
Broken contracts. An operation that is called outside of its contract, or whose fixed-width
arithmetic leaves its range, ends the whole computation with a `Violation`; no later operation runs.
A violation is a cause, and `message?` words it where the contract has a wording.
-/
namespace ProgramAnalysis

inductive Violation where
  /-- Diagram variables are numbered from 1. -/
  | zeroVariable
  /-- Node numbers stay below `2 ^ 31 - 1`. -/
  | nodesExhausted
  /-- A direct-mapped table has at most `2 ^ 31` slots. -/
  | tableTooLarge
  /-- Models were to be counted over too few variables. -/
  | dependsOutside (var bound : Nat)
  | notRegionVariable (region : String)
  | regionDependsOutside
  | versionDecreases (name : String)
  | notPredicateVariable (text : String)
  | differentBlocks (left right : String)
  | emptyProverStack
  | unknownNode (source target : Nat)
  | noComponent
  | firstNotLocation (name : String)
  | differentLocations
  /-- A result does not fit its fixed-width type. -/
  | outOfRange
  /-- A reference, an element or a pair of elements that the operation is not defined on. -/
  | illFormed
  deriving DecidableEq, Repr

namespace Violation

/-- The wording of the contract; violations of ranges and of well-formedness have none. -/
def message? : Violation → Option String
  | zeroVariable => some "Variable index should not be zero"
  | nodesExhausted => some "BDD node storage exhausted"
  | tableTooLarge => some "Bits should be in the range 0..=31"
  | dependsOutside v n => some s!"Function depends on variable {v} outside of 1..={n}"
  | notRegionVariable r => some s!"{r} is not a region variable"
  | regionDependsOutside => some "Region depends on variables outside of the given set"
  | versionDecreases x => some ("SSA index of \x60" ++ x ++ "\x60 must not decrease")
  | notPredicateVariable t => some s!"{t} is not the variable of any predicate"
  | differentBlocks l r => some s!"Cannot conjoin abstractions of different blocks: {l} and {r}"
  | emptyProverStack => some "pop() on an empty prover stack"
  | unknownNode s t => some s!"Edge N{s} -> N{t} refers to an unknown node"
  | noComponent => some "A composite analysis needs at least one component"
  | firstNotLocation c =>
    some ("The first component must track locations, found \x60" ++ c ++ "\x60")
  | differentLocations => some "Covering check between elements at different locations"
  | outOfRange => none
  | illFormed => none

end Violation

/-- A computation without state that may report a failure. -/
abbrev Outcome (ε : Type) := ExceptT ε (Except Violation)

/-- A computation over a state; a violation ends it and there is no state after it. -/
abbrev Checked (σ : Type) := StateT σ (Except Violation)

/-- A computation over a state that may also report a failure and keeps the state when it does. -/
abbrev Attempt (ε σ : Type) := ExceptT ε (Checked σ)

namespace Checked

/-- Runs a computation on a part of the state. The whole state is taken apart before the part is
changed, so that the part is not shared while it is. -/
@[inline] def zoom {σ τ ρ α : Type} (split : σ → τ × ρ) (join : τ → ρ → σ)
    (act : Checked τ α) : Checked σ α := fun s =>
  match split s with
  | (t, r) =>
    match act t with
    | .error v => .error v
    | .ok (a, t) => .ok (a, join t r)

end Checked

namespace Attempt

@[inline] def lift {ε σ α : Type} (act : Checked σ α) : Attempt ε σ α := ExceptT.lift act

@[inline] def ofOutcome {ε σ α : Type} (act : Outcome ε α) : Attempt ε σ α :=
  ExceptT.mk fun s =>
    match act.run with
    | .ok r => .ok (r, s)
    | .error v => .error v

@[inline] def mapFailure {ε ε' σ α : Type} (f : ε → ε') (act : Attempt ε σ α) :
    Attempt ε' σ α := ExceptT.adapt f act

@[inline] def zoom {ε σ τ ρ α : Type} (split : σ → τ × ρ) (join : τ → ρ → σ)
    (act : Attempt ε τ α) : Attempt ε σ α :=
  ExceptT.mk (Checked.zoom split join act.run)

/-- Runs a computation that has a state of its own besides; gives the result and that state. -/
def withState {ε σ τ ρ α : Type} (own : ρ) (join : τ → ρ → σ) (split : σ → τ × ρ)
    (act : Attempt ε σ α) : Attempt ε τ (α × ρ) :=
  ExceptT.mk fun t =>
    match act.run (join t own) with
    | .error v => .error v
    | .ok (r, s) =>
      match split s with
      | (t, own) => .ok (r.map (·, own), t)

end Attempt

end ProgramAnalysis
