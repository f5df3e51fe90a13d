/-!
Finite maps from names, kept as a list in increasing order of the names. Two maps with the same
look-ups are the same list, so equality of maps is equality of what they hold, and what is printed
or merged name by name comes in one order. Names are quoted where they are printed in debug text.
-/
namespace ProgramAnalysis

/-! ### Quoted text

Quotes, backslashes and control characters are escaped. -/

namespace Quoted

def encodeChar (c : Char) : String :=
  match c with
  | '"' => "\\\""
  | '\\' => "\\\\"
  | '\t' => "\\t"
  | '\n' => "\\n"
  | '\r' => "\\r"
  | '\x00' => "\\0"
  | c =>
    if c.toNat < 0x20 ∨ (0x7f ≤ c.toNat ∧ c.toNat < 0xa0) then
      "\\u\x7b" ++ String.ofList (Nat.toDigits 16 c.toNat) ++ "\x7d"
    else c.toString

def encode (s : String) : String := "\"" ++ String.join (s.toList.map encodeChar) ++ "\""

def list (items : List String) : String := "[" ++ ", ".intercalate items ++ "]"

end Quoted

/-! ### Maps -/

structure NameMap (α : Type) where
  entries : List (String × α)
  increasing : entries.Pairwise (fun a b => a.1 < b.1)
  deriving DecidableEq

namespace NameMap

variable {α β : Type}

/-- Entries before the name stay, an entry under the name is replaced. -/
def insertEntry (x : String) (v : α) : List (String × α) → List (String × α)
  | [] => [(x, v)]
  | (y, w) :: es =>
    if x < y then (x, v) :: (y, w) :: es
    else if x = y then (x, v) :: es
    else (y, w) :: insertEntry x v es

theorem mem_insertEntry {x : String} {v : α} {es : List (String × α)} {e : String × α}
    (h : e ∈ insertEntry x v es) : e = (x, v) ∨ e ∈ es := by
  fun_induction insertEntry x v es with
  | case1 => simpa using h
  | case2 => simpa using h
  | case3 =>
    rcases List.mem_cons.mp h with rfl | h
    · exact .inl rfl
    · exact .inr (List.mem_cons_of_mem _ h)
  | case4 y w es _ _ ih =>
    rcases List.mem_cons.mp h with rfl | h
    · exact .inr List.mem_cons_self
    · exact (ih h).imp id (List.mem_cons_of_mem _)

theorem lt_of_not_lt {x y : String} (notLt : ¬ x < y) (ne : x ≠ y) : y < x := by
  rcases String.le_total x y with h | h
  · by_cases hxy : y < x
    · exact hxy
    · exact absurd (String.le_antisymm h (String.not_lt.mp notLt)) ne
  · by_cases hxy : y < x
    · exact hxy
    · exact absurd (String.le_antisymm (String.not_lt.mp hxy) h) ne

theorem insertEntry_increasing {x : String} {v : α} {es : List (String × α)}
    (h : es.Pairwise (fun a b => a.1 < b.1)) :
    (insertEntry x v es).Pairwise (fun a b => a.1 < b.1) := by
  fun_induction insertEntry x v es with
  | case1 => simp
  | case2 y w es lt =>
    refine List.pairwise_cons.mpr ⟨fun e he => ?_, h⟩
    rcases List.mem_cons.mp he with rfl | he
    · exact lt
    · exact String.lt_trans lt ((List.pairwise_cons.mp h).1 e he)
  | case3 es => exact List.pairwise_cons.mpr (List.pairwise_cons.mp h)
  | case4 y w es notLt ne ih =>
    have ⟨hy, hes⟩ := List.pairwise_cons.mp h
    refine List.pairwise_cons.mpr ⟨fun e he => ?_, ih hes⟩
    rcases mem_insertEntry he with rfl | he
    · exact lt_of_not_lt notLt ne
    · exact hy e he

def empty : NameMap α := ⟨[], .nil⟩

instance : EmptyCollection (NameMap α) := ⟨empty⟩

instance : Inhabited (NameMap α) := ⟨empty⟩

def size (m : NameMap α) : Nat := m.entries.length

def isEmpty (m : NameMap α) : Bool := m.entries.isEmpty

def names (m : NameMap α) : List String := m.entries.map (·.1)

def values (m : NameMap α) : List α := m.entries.map (·.2)

def get? (m : NameMap α) (x : String) : Option α := m.entries.lookup x

def contains (m : NameMap α) (x : String) : Bool := (m.get? x).isSome

def insert (m : NameMap α) (x : String) (v : α) : NameMap α :=
  ⟨insertEntry x v m.entries, insertEntry_increasing m.increasing⟩

def filter (m : NameMap α) (p : String → α → Bool) : NameMap α :=
  ⟨m.entries.filter fun e => p e.1 e.2, m.increasing.filter _⟩

def erase (m : NameMap α) (x : String) : NameMap α := m.filter fun y _ => y ≠ x

def toText (m : NameMap α) (separator : String) (entry : String → α → String) : String :=
  separator.intercalate (m.entries.map fun e => entry e.1 e.2)

theorem lookup_cons (x y : String) (v : α) (es : List (String × α)) :
    List.lookup y ((x, v) :: es) = if y = x then some v else es.lookup y := by
  by_cases h : y = x
  · simp [h]
  · have differs : (y == x) = false := by simpa using h
    simp [List.lookup_cons, differs, h]

theorem lookup_insertEntry (x y : String) (v : α) (es : List (String × α)) :
    (insertEntry x v es).lookup y = if y = x then some v else es.lookup y := by
  fun_induction insertEntry x v es with
  | case1 => rw [lookup_cons]
  | case2 => rw [lookup_cons]
  | case3 =>
    rw [lookup_cons, lookup_cons]
    split <;> rfl
  | case4 z w es _ ne ih =>
    rw [lookup_cons, lookup_cons, ih]
    by_cases h : y = z
    · simp [h, Ne.symm ne]
    · simp [h]

@[simp] theorem get?_insert (m : NameMap α) (x y : String) (v : α) :
    (m.insert x v).get? y = if y = x then some v else m.get? y :=
  lookup_insertEntry x y v m.entries

end NameMap

end ProgramAnalysis
