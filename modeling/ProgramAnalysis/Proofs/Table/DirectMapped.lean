import Mathlib.Data.List.Basic
import Mathlib.Data.List.Induction
import ProgramAnalysis.Table.DirectMapped

/-! Histories of a table. Of the insertions into the slot of a key only the last one counts: a query
finds its value if it was made under this very key, and finds nothing otherwise. So the table never
gives a value of another key, and loses one only to a key of the same slot. -/
namespace ProgramAnalysis

namespace DirectMapped

variable {κ ν : Type} [SlotKey κ] {bits : Nat} {k k' : κ} {v : ν}

/-- The numbers of the keys have the same lowest digits. -/
def Collide (bits : Nat) (k k' : κ) : Prop :=
  ∀ i < bits, (SlotKey.number k).toNat.testBit i = (SlotKey.number k').toNat.testBit i

instance (bits : Nat) (k k' : κ) : Decidable (Collide bits k k') :=
  inferInstanceAs (Decidable (∀ i < bits, _ = _))

inductive Call (κ ν : Type) where
  | insert (k : κ) (v : ν)
  | get (k : κ)

namespace Call

def isGet : Call κ ν → Bool
  | .insert .. => false
  | .get _ => true

/-- An insertion into the slot of the key. -/
def Writes (bits : Nat) (k : κ) : Call κ ν → Prop
  | .insert k' _ => Collide bits k' k
  | .get _ => False

end Call

/-- Of the insertions into the slot of `k`, the last one was of `v` under `k` itself. -/
def LastInserted (bits : Nat) (calls : List (Call κ ν)) (k : κ) (v : ν) : Prop :=
  ∃ earlier later, calls = earlier ++ .insert k v :: later ∧ ∀ c ∈ later, ¬ c.Writes bits k

theorem not_lastInserted_nil : ¬ LastInserted bits ([] : List (Call κ ν)) k v := by
  rintro ⟨earlier, later, split, -⟩
  simp at split

theorem lastInserted_concat (calls : List (Call κ ν)) (c : Call κ ν) :
    LastInserted bits (calls ++ [c]) k v ↔
      c = .insert k v ∨ ¬ c.Writes bits k ∧ LastInserted bits calls k v := by
  constructor
  · rintro ⟨earlier, later, split, last⟩
    rcases later.eq_nil_or_concat' with rfl | ⟨later, d, rfl⟩
    · exact .inl (List.cons.inj (List.append_inj' split rfl).2).1
    · rw [← List.cons_append, ← List.append_assoc] at split
      obtain ⟨before, same⟩ := List.append_inj' split rfl
      cases same
      obtain ⟨old, new⟩ := List.forall_mem_append.mp last
      exact .inr ⟨new c List.mem_cons_self, earlier, later, before, old⟩
  · rintro (rfl | ⟨apart, earlier, later, rfl, last⟩)
    · exact ⟨calls, [], rfl, by simp⟩
    · refine ⟨earlier, later ++ [c], by simp, ?_⟩
      exact List.forall_mem_append.mpr ⟨last, List.forall_mem_singleton.mpr apart⟩

theorem slot_eq_iff (t : DirectMapped κ ν) : t.slot k = t.slot k' ↔ Collide t.bits k k' := by
  have digits (n i : Nat) :
      (n % (1 <<< t.bits)).testBit i = (decide (i < t.bits) && n.testBit i) := by
    rw [Nat.one_shiftLeft, Nat.testBit_mod_two_pow]
  constructor
  · intro same i low
    have digit := congrArg (·.testBit i) same
    simpa [slot, digits, low] using digit
  · intro same
    refine Nat.eq_of_testBit_eq fun i => ?_
    rw [slot, slot, digits, digits]
    by_cases low : i < t.bits
    · rw [same i low]
    · simp [low]

variable [DecidableEq κ]

def step (t : DirectMapped κ ν) : Call κ ν → DirectMapped κ ν
  | .insert k v => t.insert k v
  | .get k => (t.get? k).2

def after (t : DirectMapped κ ν) (calls : List (Call κ ν)) : DirectMapped κ ν :=
  calls.foldl step t

def answers (t : DirectMapped κ ν) : List (Call κ ν) → List (Option ν)
  | [] => []
  | .insert k v :: calls => (t.insert k v).answers calls
  | .get k :: calls => (t.get? k).1 :: (t.get? k).2.answers calls

variable {t : DirectMapped κ ν}

theorem bits_after (t : DirectMapped κ ν) (calls : List (Call κ ν)) :
    (t.after calls).bits = t.bits := by
  induction calls generalizing t with
  | nil => rfl
  | cons c calls ih =>
    refine (ih (t.step c)).trans ?_
    cases c with
    | insert k v => rfl
    | get k => exact t.bits_get? k

theorem find?_step (t : DirectMapped κ ν) (c : Call κ ν) : (t.step c).find? k = some v ↔
    c = .insert k v ∨ ¬ c.Writes t.bits k ∧ t.find? k = some v := by
  cases c with
  | get k' => simp [step, Call.Writes]
  | insert k' w =>
    rw [step, find?_insert_eq]
    by_cases shared : Collide t.bits k' k
    · rw [if_pos ((slot_eq_iff t).mpr shared)]
      simp [Call.Writes, shared]
    · have other : k' ≠ k := by
        rintro rfl
        exact shared fun _ _ => rfl
      rw [if_neg (shared ∘ (slot_eq_iff t).mp)]
      simp [Call.Writes, shared, other]

theorem find?_after (made : ofBits bits = .ok t) (calls : List (Call κ ν)) (k : κ) (v : ν) :
    (t.after calls).find? k = some v ↔ LastInserted bits calls k v := by
  have start : t.bits = bits ∧ t.find? k = none := by
    unfold ofBits at made
    split at made
    · cases made
      exact ⟨rfl, by simp [find?, empty]⟩
    · cases made
  -- The last call comes first, since it decides about its slot.
  induction calls using List.reverseRecOn with
  | nil => exact iff_of_false (by simp [after, start.2]) not_lastInserted_nil
  | append_singleton calls c ih =>
    have last : t.after (calls ++ [c]) = (t.after calls).step c := by simp [after]
    rw [last, find?_step, bits_after, start.1, lastInserted_concat]
    exact or_congr_right (and_congr_right fun _ => ih)

/-! ### Counting -/

theorem hits_get? (t : DirectMapped κ ν) (k : κ) :
    (t.get? k).2.hits = t.hits + if (t.get? k).1.isSome then 1 else 0 := by
  unfold get?
  cases t.find? k <;> rfl

theorem hits_add_misses_after (t : DirectMapped κ ν) (calls : List (Call κ ν)) :
    (t.after calls).hits + (t.after calls).misses =
      t.hits + t.misses + calls.countP Call.isGet := by
  induction calls generalizing t with
  | nil => rfl
  | cons c calls ih =>
    refine (ih (t.step c)).trans ?_
    cases c with
    | insert k v => rfl
    | get k =>
      rw [step, hits_add_misses_get?, List.countP_cons_of_pos rfl]
      omega

theorem hits_after (t : DirectMapped κ ν) (calls : List (Call κ ν)) :
    (t.after calls).hits = t.hits + (t.answers calls).countP Option.isSome := by
  induction calls generalizing t with
  | nil => rfl
  | cons c calls ih =>
    refine (ih (t.step c)).trans ?_
    cases c with
    | insert k v => rfl
    | get k =>
      rw [step, hits_get?, answers, List.countP_cons]
      omega

/-- After any history of a new table a query finds the last insertion into its slot if that was one of
its very key, and nothing otherwise. Hits and misses together count the queries, and the hits count
the queries that found something. -/
theorem finds_last_inserted (small : bits ≤ 31) : ∃ t : DirectMapped κ ν, ofBits bits = .ok t ∧
    ∀ calls : List (Call κ ν),
      (∀ k v, ((t.after calls).get? k).1 = some v ↔ LastInserted bits calls k v) ∧
      (t.after calls).hits + (t.after calls).misses = calls.countP Call.isGet ∧
      (t.after calls).hits = (t.answers calls).countP Option.isSome := by
  have made : ofBits bits = .ok (empty (κ := κ) (ν := ν) bits small) := dif_pos small
  refine ⟨_, made, fun calls => ⟨fun k v => ?_, ?_, ?_⟩⟩
  · rw [fst_get?]
    exact find?_after made calls k v
  · rw [hits_add_misses_after]
    exact Nat.zero_add _
  · rw [hits_after]
    exact Nat.zero_add _

/-- The number of the second key wraps around and collides with that of the first. -/
def collidingCalls : List (Call (UInt64 × UInt64) Int) :=
  [.insert (1, 2) 3, .get (1, 2), .insert (0x100000000, 5) 4]

theorem finds_last_inserted_colliding : 3 ≤ 31 ∧
    ∃ t : DirectMapped (UInt64 × UInt64) Int, ofBits 3 = .ok t ∧
      (∀ v, ((t.after collidingCalls).get? (1, 2)).1 ≠ some v) ∧
      ((t.after collidingCalls).get? (0x100000000, 5)).1 = some 4 ∧
      (t.after collidingCalls).hits + (t.after collidingCalls).misses = 1 := by
  have small : 3 ≤ 31 := by decide
  obtain ⟨t, made, finds⟩ := finds_last_inserted (κ := UInt64 × UInt64) (ν := Int) small
  obtain ⟨found, counted, -⟩ := finds collidingCalls
  have collide : Collide 3 ((0x100000000, 5) : UInt64 × UInt64) (1, 2) := by decide
  have last : LastInserted 3 collidingCalls (0x100000000, 5) 4 :=
    ⟨[.insert (1, 2) 3, .get (1, 2)], [], rfl, by simp⟩
  refine ⟨small, t, made, fun v here => ?_, (found _ _).mpr last, counted⟩
  have lost : ¬ LastInserted 3 collidingCalls (1, 2) v := by
    rw [show collidingCalls = [.insert (1, 2) 3, .get (1, 2)] ++ [.insert (0x100000000, 5) 4] from rfl,
      lastInserted_concat]
    rintro (same | ⟨apart, -⟩)
    · cases same
    · exact apart collide
  exact lost ((found _ _).mp here)

end DirectMapped

end ProgramAnalysis
