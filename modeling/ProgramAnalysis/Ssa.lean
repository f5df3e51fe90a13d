import ProgramAnalysis.Table.NameMap
import ProgramAnalysis.Violation

/-!
Static single assignment: the latest index of every variable. A variable that was never assigned
reads at index 1, so its first assignment makes index 2. Indices are 32-bit numbers that never
decrease.
-/
namespace ProgramAnalysis

structure SsaMap where
  indices : NameMap Nat
  deriving DecidableEq

namespace SsaMap

def empty : SsaMap := ⟨∅⟩

/-- The index of a variable that was never assigned. -/
def defaultIndex : Nat := 1

def index? (s : SsaMap) (x : String) : Option Nat := s.indices.get? x

def index (s : SsaMap) (x : String) : Nat := (s.index? x).getD defaultIndex

def nextIndex (s : SsaMap) (x : String) : Except Violation Nat :=
  if s.index x + 1 < 0x100000000 then .ok (s.index x + 1) else .error .outOfRange

/-- An index that is in the map may only grow. -/
def set (s : SsaMap) (x : String) (i : Nat) : Except Violation SsaMap :=
  match s.index? x with
  | some old => if old ≤ i then .ok ⟨s.indices.insert x i⟩ else .error (.versionDecreases x)
  | none => .ok ⟨s.indices.insert x i⟩

def setAll (s : SsaMap) (assignments : List (String × Nat)) : Except Violation SsaMap :=
  assignments.foldlM (fun s (x, i) => s.set x i) s

def max (a b : SsaMap) : SsaMap :=
  ⟨b.indices.entries.foldl (fun m (x, i) =>
    m.insert x ((m.get? x).elim i (Nat.max · i))) a.indices⟩

/-- A variable whose indices differ, with its index on either side. -/
structure Difference where
  name : String
  left : Option Nat
  right : Option Nat
  deriving DecidableEq, Repr

/-- The differences of two maps: first the variables of the right map, then those that only the
left map has. -/
def differences (a b : SsaMap) : List Difference :=
  (b.indices.entries.filterMap fun (x, i) =>
    if a.index? x = some i then none else some ⟨x, a.index? x, some i⟩) ++
  (a.indices.entries.filterMap fun (x, i) =>
    if b.indices.contains x then none else some ⟨x, some i, none⟩)

def toText (s : SsaMap) : String :=
  "\x7b" ++ s.indices.toText ", " (fun x i => s!"{x}@{i}") ++ "\x7d"

end SsaMap

end ProgramAnalysis
