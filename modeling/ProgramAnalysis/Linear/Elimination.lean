import ProgramAnalysis.Linear.Constraint
import ProgramAnalysis.Options

/-!
Consistency of linear constraints over the integers. Equations with a coefficient 1 or -1 are solved
for that variable, other equations become two inequalities. Variables of inequalities are
eliminated by adding each inequality that bounds the variable from above to each that bounds it from
below, and what comes out is tightened to integers. A disequality is split into its two sides.

The answer `false` is exact. The answer `true` may ignore that solutions have to be integers.
-/
namespace ProgramAnalysis

/-- Reasoning about constraints: it fails at a limit or when a number leaves the range. -/
abbrev Reasoning := ExceptT SolverFailure (Except Violation)

namespace Elimination

def orOverflow {α : Type} (e : Option α) : Reasoning α :=
  match e with
  | some e => return e
  | none => throw .overflow

/-- The inequality `e ≤ 0` with its coefficients divided by their greatest common divisor and its
constant rounded up. An inequality that always holds is dropped. -/
def tighten? (e : LinearForm) : Except Violation (Option LinearForm) := do
  let g ← e.gcd
  if g = 0 then return if 0 < e.constant then some e else none
  else if g = 1 then return some e
  else if e.constant = -Machine.bound128 then throw .outOfRange
  else return some ⟨e.coeffs.map fun (x, c) => (x, c / g), -(-e.constant / g)⟩

/-- Tightens inequalities one after another. There is no result if one of them never holds. -/
def tightenAll : List LinearForm → Except Violation (Option (List LinearForm))
  | [] => return some []
  | e :: es => do
    match ← tighten? e with
    | none => tightenAll es
    | some e =>
      if e.coeffs.isEmpty then return none
      else return (← tightenAll es).map (e :: ·)

/-- Adds multiples of an upper and a lower bound of `x` so that `x` drops out. -/
def combine (x : Nat) (upper lower : LinearForm) : Option LinearForm := do
  (← upper.scale? (-lower.coeff x)).addScaled? lower (upper.coeff x)

/-- Combines and tightens pairs one after another; the second part is the inequalities made so far.
There is no result if one of them never holds. -/
def combineAll (x : Nat) : List (LinearForm × LinearForm) → List LinearForm →
    Reasoning (Option (List LinearForm))
  | [], made => return some made
  | (upper, lower) :: pairs, made => do
    let e ← orOverflow (combine x upper lower)
    match ← tighten? e with
    | none => combineAll x pairs made
    | some e => if e.coeffs.isEmpty then return none else combineAll x pairs (e :: made)

/-- How many inequalities the elimination of a variable makes. -/
def cost (es : List LinearForm) (x : Nat) : Nat :=
  (es.countP fun e => 0 < e.coeff x) * (es.countP fun e => e.coeff x < 0)

def cheapest? (es : List LinearForm) (xs : List Nat) : Option Nat :=
  (xs.foldl (fun (best : Option (Nat × Nat)) x =>
    match best with
    | none => some (cost es x, x)
    | some (c, y) => if cost es x < c then some (cost es x, x) else some (c, y)) none).map (·.2)

def eliminate (limits : SolverLimits) (xs : List Nat) (es : List LinearForm) : Reasoning Bool :=
  match cheapest? es (xs.filter fun x => es.any fun e => e.coeff x ≠ 0) with
  | none => return true
  | some x =>
    if _pending : x ∈ xs then do
      let uppers := es.filter fun e => 0 < e.coeff x
      let lowers := es.filter fun e => e.coeff x < 0
      let others := es.filter fun e => e.coeff x = 0
      let pairs := uppers.flatMap fun u => lowers.map fun l => (u, l)
      match ← combineAll x pairs [] with
      | none => return false
      | some made =>
        let es := LinearForm.sorted (others ++ made)
        if limits.maxConstraints < es.length then throw (.constraints limits.maxConstraints)
        else eliminate limits (xs.erase x) es
    else return true
termination_by xs.length
decreasing_by
  rw [List.length_erase_of_mem _pending]
  exact Nat.sub_one_lt (Nat.ne_of_gt (List.length_pos_of_mem _pending))

def inequalities (limits : SolverLimits) (es : List LinearForm) : Reasoning Bool := do
  match ← tightenAll es with
  | none => return false
  | some es =>
    let es := LinearForm.sorted es
    let xs := (es.flatMap fun e => e.coeffs.map (·.1)).eraseDups.mergeSort
    eliminate limits xs es

theorem length_mapM {α β : Type} {f : α → Option β} {xs : List α} {ys : List β}
    (h : xs.mapM f = some ys) : ys.length = xs.length := by
  induction xs generalizing ys with
  | nil =>
    cases h
    rfl
  | cons x xs ih =>
    rw [List.mapM_cons] at h
    cases hx : f x with
    | none => simp [hx] at h
    | some y =>
      cases hxs : xs.mapM f with
      | none => simp [hx, hxs] at h
      | some zs =>
        simp only [hx, hxs, Option.bind_eq_bind, Option.bind_some, Option.pure_def,
          Option.some.injEq] at h
        rw [← h, List.length_cons, List.length_cons, ih hxs]

/-- Whether equations and inequalities have a common solution. Each equation is used up. -/
def equations (limits : SolverLimits) (eqs les : List LinearForm) : Reasoning Bool :=
  match eqs with
  | [] => inequalities limits les
  | e :: eqs => do
    let g ← e.gcd
    if g = 0 then
      if e.constant ≠ 0 then return false else equations limits eqs les
    else if e.constant % g ≠ 0 then return false
    else
      match e.unit? with
      | some (x, c) =>
        let replacement ← orOverflow ((e.erase x).scale? (-c))
        match _solved : eqs.mapM (LinearForm.substitute? x replacement) with
        | none => throw .overflow
        | some eqs' =>
          let les ← orOverflow (les.mapM (LinearForm.substitute? x replacement))
          equations limits eqs' les
      | none =>
        let opposite ← orOverflow (e.scale? (-1))
        equations limits eqs (les ++ [e, opposite])
termination_by eqs.length
decreasing_by
  · simp
  · simp [length_mapM _solved]
  · simp

/-- Splits disequalities into the two cases `e ≤ -1` and `1 ≤ e`. The state counts the splits. -/
def split (limits : SolverLimits) (eqs : List LinearForm) :
    List LinearForm → List LinearForm → StateT Nat Reasoning Bool
  | nes, les => do
    if !(← equations limits eqs les) then return false
    match nes with
    | [] => return true
    | ne :: nes =>
      modify (· + 1)
      if limits.maxCaseSplits < (← get) then throw (.caseSplits limits.maxCaseSplits)
      else
        let below ← orOverflow (ne.addConst? 1)
        let above ← orOverflow ((ne.scale? (-1)).bind (·.addConst? 1))
        if ← split limits eqs nes (les ++ [below]) then return true
        else split limits eqs nes (les ++ [above])

end Elimination

/-- Whether constraints have a common solution. The last equation is solved first. -/
def Constraint.areConsistent (limits : SolverLimits) (cs : List Constraint) : Reasoning Bool := do
  let les := cs.filterMap fun | .atMostZero e => some e | _ => none
  let eqs := cs.filterMap fun | .zero e => some e | _ => none
  let nes := cs.filterMap fun | .nonzero e => some e | _ => none
  let (answer, _) ← (Elimination.split limits eqs.reverse nes les).run 0
  return answer

end ProgramAnalysis
