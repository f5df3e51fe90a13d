/-!
Pairing of words. `Pairing.pair` numbers pairs of words shell by shell: the pairs whose larger
member is `m` get the numbers from `m ^ 2` on. The arithmetic is modulo `2 ^ 64`; below `2 ^ 32`
nothing wraps.
-/
namespace ProgramAnalysis

namespace Pairing

/-- The elegant pairing function, modulo `2 ^ 64`. -/
def pair (a b : UInt64) : UInt64 :=
  if a < b then b * b + a else a * a + a + b

/-- Triples are paired from the left. -/
def triple (a b c : UInt64) : UInt64 :=
  pair (pair a b) c

end Pairing

/-- Keys with a number that decides their slot in a table. -/
class SlotKey (κ : Type) where
  number : κ → UInt64

instance : SlotKey (UInt64 × UInt64) where
  number k := Pairing.pair k.1 k.2

instance : SlotKey (UInt64 × UInt64 × UInt64) where
  number k := Pairing.triple k.1 k.2.1 k.2.2

end ProgramAnalysis
