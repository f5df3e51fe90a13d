import ProgramAnalysis.Diagram.Basic

/-!
If-then-else and the connectives made from it. `ite f g h` is the function
`(f ∧ g) ∨ (¬f ∧ h)`. Triples that need no node are answered at once; all others are brought to a
standard form (`f` and `g` without sign), looked up in the computed table, and split at the first
variable of the three. Each split moves to older nodes, so the recursion ends.
-/
namespace ProgramAnalysis

/-- What a triple is before any node is looked at. -/
inductive IteForm where
  | known (r : Ref)
  | standard (f g h : Ref) (complemented : Bool)
  deriving Repr

namespace IteForm

def constant? (f g h : Ref) : Option Ref :=
  if g = h then some g
  else if g = .one ∧ h = .zero then some f
  else if g = .zero ∧ h = .one then some (-f)
  else none

/-- Branches that repeat the condition are replaced by constants, and signs are moved from `f` to
the order of the branches and from `g` to the result. -/
def ofTriple (f g h : Ref) : IteForm :=
  if f = .one then .known g
  else if f = .zero then .known h
  else match constant? f g h with
  | some r => .known r
  | none =>
    let g' := if g = f then .one else if g = -f then .zero else g
    let h' := if h = f then .zero else if h = -f then .one else h
    match constant? f g' h' with
    | some r => .known r
    | none =>
      let (f, g, h) := if f.isNegated then (-f, h', g') else (f, g', h')
      if g.isNegated then .standard f (-g) (-h) true else .standard f g h false

end IteForm

namespace Ref

/-- The size of a reference in the recursions: constants count as the terminal. -/
def weight (r : Ref) : Nat := max r.index 1

@[simp] theorem weight_neg (r : Ref) : (-r).weight = r.weight := by simp [weight]

@[simp] theorem weight_one : one.weight = 1 := rfl

@[simp] theorem weight_zero : zero.weight = 1 := rfl

theorem one_le_weight (r : Ref) : 1 ≤ r.weight := Nat.le_max_right _ _

end Ref

theorem IteForm.weight_le {f g h f' g' h' : Ref} {c : Bool}
    (form : ofTriple f g h = .standard f' g' h' c) :
    f'.weight + g'.weight + h'.weight ≤ f.weight + g.weight + h.weight := by
  have hg : (if g = f then Ref.one else if g = -f then Ref.zero else g).weight ≤ g.weight := by
    have := g.one_le_weight
    split
    · simpa
    · split <;> simp [*, Ref.one_le_weight]
  have hh : (if h = f then Ref.zero else if h = -f then Ref.one else h).weight ≤ h.weight := by
    have := h.one_le_weight
    split
    · simpa
    · split <;> simp [*, Ref.one_le_weight]
  unfold ofTriple at form
  split at form
  · cases form
  split at form
  · cases form
  split at form
  · cases form
  dsimp only at form
  generalize (if g = f then Ref.one else if g = -f then Ref.zero else g) = g₁ at *
  generalize (if h = f then Ref.zero else if h = -f then Ref.one else h) = h₁ at *
  split at form
  · cases form
  split at form
  · split at form <;> cases form <;> simp <;> omega
  · split at form <;> cases form <;> simp <;> omega

namespace Diagram

/-- The two cofactors of `r` at level `v`; a root below that level does not depend on it. -/
def cofactors (d : Diagram) (v : Nat) (r : Ref) : Ref × Ref :=
  if v < d.level r then (r, r) else (d.low r, d.high r)

/-- The first level of three functions. -/
def topLevel (d : Diagram) (f g h : Ref) : Nat :=
  min (min (d.level f) (d.level g)) (d.level h)

theorem weight_lt_of_node? {d : Diagram} {r : Ref} {n : Node} (h : d.node? r = some n) :
    (d.low r).weight < r.weight ∧ (d.high r).weight < r.weight := by
  have := index_lt_of_node? h
  simp only [low, high, h, Ref.weight, index_complementIf]
  omega

theorem weight_cofactors_le (d : Diagram) (v : Nat) (r : Ref) :
    (d.cofactors v r).1.weight ≤ r.weight ∧ (d.cofactors v r).2.weight ≤ r.weight := by
  unfold cofactors
  split
  · simp
  · cases h : d.node? r with
    | none => simp [low, high, h]
    | some n =>
      have := weight_lt_of_node? h
      exact ⟨Nat.le_of_lt this.1, Nat.le_of_lt this.2⟩

theorem weight_cofactors_lt {d : Diagram} {v : Nat} {r : Ref} (top : d.level r = v)
    (inner : v ≠ bottomLevel) :
    (d.cofactors v r).1.weight < r.weight ∧ (d.cofactors v r).2.weight < r.weight := by
  have notLt : ¬ v < d.level r := by omega
  simp only [cofactors, notLt, if_false]
  cases h : d.node? r with
  | none => exact absurd (by simpa [level, h] using top.symm) inner
  | some n => exact weight_lt_of_node? h

theorem weight_split_lt {d : Diagram} {f g h : Ref} (inner : d.topLevel f g h ≠ bottomLevel) :
    let v := d.topLevel f g h
    (d.cofactors v f).1.weight + (d.cofactors v g).1.weight + (d.cofactors v h).1.weight <
        f.weight + g.weight + h.weight ∧
      (d.cofactors v f).2.weight + (d.cofactors v g).2.weight + (d.cofactors v h).2.weight <
        f.weight + g.weight + h.weight := by
  intro v
  have wf := weight_cofactors_le d v f
  have wg := weight_cofactors_le d v g
  have wh := weight_cofactors_le d v h
  have root : d.level f = v ∨ d.level g = v ∨ d.level h = v := by
    change d.level f = min (min (d.level f) (d.level g)) (d.level h) ∨
      d.level g = min (min (d.level f) (d.level g)) (d.level h) ∨
      d.level h = min (min (d.level f) (d.level g)) (d.level h)
    omega
  rcases root with top | top | top
  · have := weight_cofactors_lt top inner
    omega
  · have := weight_cofactors_lt top inner
    omega
  · have := weight_cofactors_lt top inner
    omega

/-- The function that is `g` where `f` holds and `h` elsewhere. -/
def ite (f g h : Ref) : DiagramM Ref :=
  match _form : IteForm.ofTriple f g h with
  | .known r => pure r
  | .standard f' g' h' complemented => do
    match ← remembered? (.ite f' g' h') with
    | some r => return r.complementIf complemented
    | none =>
      let d ← get
      if _inner : d.topLevel f' g' h' = bottomLevel then throw .illFormed
      else
        let v := d.topLevel f' g' h'
        let fs := d.cofactors v f'
        let gs := d.cofactors v g'
        let hs := d.cofactors v h'
        let e ← ite fs.1 gs.1 hs.1
        let t ← ite fs.2 gs.2 hs.2
        let r ← mkNode v e t
        remember (.ite f' g' h') r
        return r.complementIf complemented
termination_by f.weight + g.weight + h.weight
decreasing_by
  · have := IteForm.weight_le _form
    have := (weight_split_lt _inner).1
    omega
  · have := IteForm.weight_le _form
    have := (weight_split_lt _inner).2
    omega

def and (f g : Ref) : DiagramM Ref := ite f g .zero

def or (f g : Ref) : DiagramM Ref := ite f .one g

def xor (f g : Ref) : DiagramM Ref := ite f (-g) g

def iff (f g : Ref) : DiagramM Ref := ite f g (-g)

/-- The conjunction of a list; once it is false the rest is not looked at. -/
def andAll (fs : List Ref) : DiagramM Ref := go .one fs
where
  go (acc : Ref) : List Ref → DiagramM Ref
    | [] => return acc
    | f :: fs => do
      let acc ← and acc f
      if acc = .zero then return acc else go acc fs

def implies (f g : Ref) : DiagramM Bool := do
  return (← and f (-g)) = .zero

/-- The conjunction of literals, signed variable numbers, made from the last variable to the first.
To order two literals their numbers have to fit without the sign. -/
def cube (literals : List Int) : DiagramM Ref :=
  if 2 ≤ literals.length ∧ literals.contains (-0x80000000) then throw .outOfRange
  else (literals.mergeSort (fun a b => b.natAbs ≤ a.natAbs)).foldlM (fun acc lit => do
    let x ← mkVar lit.natAbs
    and (x.complementIf (lit < 0)) acc) .one

end Diagram

end ProgramAnalysis
