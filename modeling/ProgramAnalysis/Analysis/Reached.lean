import ProgramAnalysis.Analysis.Basic

/-!
Reached sets: the states that were reached, each with its precision, and the waitlist of those whose
successors are still to be computed. A specialized set keeps the states of every point apart.
-/
namespace ProgramAnalysis

structure ReachedSet (ε π : Type) where
  specialized : Bool
  /-- A set that is not specialized has at most one partition. -/
  partitions : List (Option Point × List (ε × π))
  waitlist : List (ε × π)
  size : Nat

namespace ReachedSet

variable {ε π : Type}

/-- Takes out the first element that passes the test; the last element moves to its place. -/
def takeOut? {α : Type} (test : α → Bool) : List α → Option (List α)
  | [] => none
  | x :: xs =>
    if test x then some (match xs.getLast? with
      | some last => last :: xs.dropLast
      | none => [])
    else (takeOut? test xs).map (x :: ·)

def empty (specialized : Bool) : ReachedSet ε π := ⟨specialized, [], [], 0⟩

def partition (r : ReachedSet ε π) (key : Option Point) : List (ε × π) :=
  (r.partitions.lookup key).getD []

def setPartition (key : Option Point) (entries : List (ε × π)) :
    List (Option Point × List (ε × π)) → List (Option Point × List (ε × π))
  | [] => [(key, entries)]
  | (k, es) :: rest =>
    if k = key then (k, entries) :: rest else (k, es) :: setPartition key entries rest

def entries (r : ReachedSet ε π) : List (ε × π) := r.partitions.flatMap (·.2)

def isEmpty (r : ReachedSet ε π) : Bool := r.size = 0

def hasWaiting (r : ReachedSet ε π) : Bool := !r.waitlist.isEmpty

/-- The oldest waiting state. -/
def pop? (r : ReachedSet ε π) : Option ((ε × π) × ReachedSet ε π) :=
  match r.waitlist with
  | [] => none
  | e :: rest => some (e, { r with waitlist := rest })

variable [Located ε]

def key (r : ReachedSet ε π) (e : ε) : Option Point :=
  if r.specialized then Located.point? e else none

/-- Adds a state, which then waits. -/
def add (r : ReachedSet ε π) (e : ε) (π₀ : π) : ReachedSet ε π :=
  { r with
    partitions := setPartition (r.key e) (r.partition (r.key e) ++ [(e, π₀)]) r.partitions
    waitlist := r.waitlist ++ [(e, π₀)]
    size := r.size + 1 }

/-- The reached states at the point of `e`. -/
def reached (r : ReachedSet ε π) (e : ε) : List ε :=
  let states := (r.partition (r.key e)).map (·.1)
  if r.specialized then states
  else states.filter fun f => Located.point? f = Located.point? e

def statesAt (r : ReachedSet ε π) (x : Point) : List ε :=
  (r.entries.map (·.1)).filter fun f => Located.point? f = some x

variable [BEq ε]

def remove (r : ReachedSet ε π) (e : ε) : ReachedSet ε π :=
  match takeOut? (fun entry => entry.1 == e) (r.partition (r.key e)) with
  | some rest =>
    { r with partitions := setPartition (r.key e) rest r.partitions, size := r.size - 1 }
  | none => r

/-- Replaces a state by another one at the same point; the old state waits no longer. -/
def replace (r : ReachedSet ε π) (old new : ε) (π₀ : π) : Except Violation (ReachedSet ε π) :=
  if r.key old = r.key new then
    let r := r.remove old
    .ok ({ r with waitlist := r.waitlist.filter fun entry => entry.1 != old }.add new π₀)
  else .error .illFormed

def precision? (r : ReachedSet ε π) (e : ε) : Option π :=
  ((r.partition (r.key e)).find? fun entry => entry.1 == e).map (·.2)

def contains (r : ReachedSet ε π) (e : ε) : Bool := (r.reached e).contains e

end ReachedSet

end ProgramAnalysis
