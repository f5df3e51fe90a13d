import ProgramAnalysis.Numeric.Pairing
import ProgramAnalysis.Violation
import Std.Data.HashMap

/-!
Direct-mapped tables. A key has exactly one slot, given by the low bits of its number, and an entry
replaces whatever was in its slot. The table counts how many queries it answered.
-/
namespace ProgramAnalysis

/-- Slots that were never written are absent from `slots`. -/
structure DirectMapped (κ ν : Type) where
  bits : Nat
  slots : Std.HashMap Nat (κ × ν)
  hits : Nat
  misses : Nat
  bits_le : bits ≤ 31

namespace DirectMapped

variable {κ ν : Type}

def empty (bits : Nat) (h : bits ≤ 31) : DirectMapped κ ν :=
  ⟨bits, ∅, 0, 0, h⟩

def ofBits (bits : Nat) : Except Violation (DirectMapped κ ν) :=
  if h : bits ≤ 31 then .ok (empty bits h) else .error .tableTooLarge

variable [SlotKey κ]

def slot (t : DirectMapped κ ν) (k : κ) : Nat :=
  (SlotKey.number k).toNat % (1 <<< t.bits)

variable [DecidableEq κ]

/-- The value under exactly this key, if its slot still holds it. -/
def find? (t : DirectMapped κ ν) (k : κ) : Option ν :=
  match t.slots[t.slot k]? with
  | some (k', v) => if k' = k then some v else none
  | none => none

def get? (t : DirectMapped κ ν) (k : κ) : Option ν × DirectMapped κ ν :=
  match t.find? k with
  | some v => (some v, { t with hits := t.hits + 1 })
  | none => (none, { t with misses := t.misses + 1 })

def insert (t : DirectMapped κ ν) (k : κ) (v : ν) : DirectMapped κ ν :=
  { t with slots := t.slots.insert (t.slot k) (k, v) }

@[simp] theorem fst_get? (t : DirectMapped κ ν) (k : κ) : (t.get? k).1 = t.find? k := by
  unfold get?
  split <;> simp [*]

@[simp] theorem find?_get? (t : DirectMapped κ ν) (k k' : κ) :
    (t.get? k).2.find? k' = t.find? k' := by
  unfold get?
  split <;> rfl

@[simp] theorem bits_get? (t : DirectMapped κ ν) (k : κ) : (t.get? k).2.bits = t.bits := by
  unfold get?
  split <;> rfl

/-- An insertion decides for all keys of its slot. -/
theorem find?_insert_eq (t : DirectMapped κ ν) (k k' : κ) (v : ν) :
    (t.insert k v).find? k' =
      if t.slot k = t.slot k' then if k = k' then some v else none else t.find? k' := by
  have slot : (t.insert k v).slot k' = t.slot k' := rfl
  unfold find?
  rw [slot]
  by_cases shared : t.slot k = t.slot k' <;> simp [insert, Std.HashMap.getElem?_insert, shared]

theorem hits_add_misses_get? (t : DirectMapped κ ν) (k : κ) :
    (t.get? k).2.hits + (t.get? k).2.misses = t.hits + t.misses + 1 := by
  unfold get?
  split <;> simp <;> omega

end DirectMapped

end ProgramAnalysis
