import ProgramAnalysis.Analysis.Composite.Operators
import ProgramAnalysis.Proofs.Analysis.Closure

/-! Specialization is not observable. A specialized reached set and a plain one that go through the same
operations have the same waitlist and, at every point, the same states as often as each other, though
not in the same order. Composite analyses give the same answers with both. -/
namespace ProgramAnalysis

namespace ReachedSet

variable {ε π : Type}

/-- A permutation up to equality of the elements. -/
def Rearranged [BEq ε] (xs ys : List ε) : Prop :=
  ∃ zs, xs.Perm zs ∧ List.Forall₂ (fun z y => (z == y) = true) zs ys

theorem Rearranged.perm [BEq ε] [LawfulBEq ε] {xs ys : List ε} (same : Rearranged xs ys) :
    xs.Perm ys := by
  obtain ⟨zs, perm, equal⟩ := same
  have equal : zs = ys := List.forall₂_eq_eq_eq ▸ equal.imp fun _ _ => eq_of_beq
  exact equal ▸ perm

theorem rearranged_of_count [BEq ε] [EquivBEq ε] {xs ys : List ε}
    (counts : ∀ e, xs.count e = ys.count e) : Rearranged xs ys := by
  induction ys generalizing xs with
  | nil =>
    cases xs with
    | nil => exact ⟨[], .refl _, .nil⟩
    | cons x xs =>
      have none := counts x
      rw [List.count_cons, BEq.rfl] at none
      exact absurd none (Nat.succ_ne_zero _)
  | cons y ys ih =>
    -- Some element that equals `y` is in `xs`; without both, the counts still agree.
    have there : 0 < xs.count y := by
      rw [counts, List.count_cons, BEq.rfl]
      exact Nat.succ_pos _
    obtain ⟨x, mem, same⟩ := List.countP_pos_iff.mp there
    obtain ⟨before, after, rfl⟩ := List.append_of_mem mem
    have rest : ∀ e, (before ++ after).count e = ys.count e := by
      intro e
      have whole := counts e
      have split : (x == e) = (y == e) := BEq.congr_left same
      simp only [List.count_append, List.count_cons, split] at whole ⊢
      omega
    obtain ⟨zs, perm, equal⟩ := ih rest
    exact ⟨x :: zs, List.perm_middle.trans (perm.cons x), .cons same equal⟩

variable [Located ε]

/-- Divided by keys, with the right size. -/
structure Tidy (r : ReachedSet ε π) : Prop where
  divided : r.Partitioned
  filled : r.size = r.states.length

theorem Tidy.add {r : ReachedSet ε π} (tidy : r.Tidy) (e : ε) (p : π) : (r.add e p).Tidy := by
  constructor
  · exact tidy.divided.add e p
  · rw [(states_add r e p).length_eq, List.length_cons, ← tidy.filled]
    rfl

def EqualLocated (ε : Type) [Located ε] [BEq ε] : Prop :=
  ∀ e f : ε, (e == f) = true → Located.point? e = Located.point? f

/-- An operation of the worklist algorithm. A replacement stays at its point. -/
inductive Edit (ε π : Type) [Located ε] where
  | add (e : ε) (p : π)
  | replace (old new : ε) (p : π) (here : Located.point? old = Located.point? new)
  | pop

variable [BEq ε]

namespace Edit

/-- The reached set after an operation, and the state that it took from the waitlist. -/
def apply (r : ReachedSet ε π) : Edit ε π → Except Violation (ReachedSet ε π × Option (ε × π))
  | add e p => .ok (r.add e p, none)
  | replace old new p _ => (r.replace old new p).map (·, none)
  | pop =>
    match r.pop? with
    | some (x, rest) => .ok (rest, some x)
    | none => .ok (r, none)

def applyAll : ReachedSet ε π → List (Edit ε π) →
    Except Violation (ReachedSet ε π × List (Option (ε × π)))
  | r, [] => .ok (r, [])
  | r, edit :: edits => do
    let (r, x) ← edit.apply r
    let (r, xs) ← applyAll r edits
    return (r, x :: xs)

theorem applyAll_cons {r s t : ReachedSet ε π} {edit : Edit ε π} {edits : List (Edit ε π)}
    {x : Option (ε × π)} {xs : List (Option (ε × π))} (first : edit.apply r = .ok (s, x))
    (rest : applyAll s edits = .ok (t, xs)) : applyAll r (edit :: edits) = .ok (t, x :: xs) := by
  simp only [applyAll, first, rest, bind, Except.bind, pure, Except.pure]

/-- A specialized and a plain set go through the operations without breaking a contract. Both take the
same states from the same waitlist, have the same right size, and reach the same states at every point up
to their order. -/
def Agree (edits : List (Edit ε π)) : Prop :=
  ∃ r r' popped, applyAll (.empty true) edits = .ok (r, popped) ∧
    applyAll (.empty false) edits = .ok (r', popped) ∧
    r.waitlist = r'.waitlist ∧ r.size = r'.size ∧
    r.size = r.entries.length ∧ r'.size = r'.entries.length ∧
    ∀ e, Rearranged (r.reached e) (r'.reached e) ∧
      (LawfulBEq ε → (r.reached e).Perm (r'.reached e))

end Edit

/-! ### Counting the states -/

theorem count_add (r : ReachedSet ε π) (e : ε) (p : π) (f : ε) :
    (r.add e p).states.count f = r.states.count f + if e == f then 1 else 0 := by
  rw [(states_add r e p).count_eq, List.count_cons]

section Count

variable (located : EqualLocated ε) {r : ReachedSet ε π} (divided : r.Partitioned)
include located divided

theorem count_remove [EquivBEq ε] (e f : ε) :
    (r.remove e).states.count f = r.states.count f - if e == f then 1 else 0 := by
  rcases divided.remove_cases (located · e) with ⟨d, same, perm, -⟩ | ⟨unchanged, missing⟩
  · rw [perm.count_eq, List.count_cons, BEq.congr_left same, Nat.add_sub_cancel]
  · rw [unchanged]
    split
    · rename_i same
      have none : r.states.count f = 0 := by
        apply List.countP_eq_zero.mpr
        intro d mem
        rw [BEq.congr_right (BEq.symm same), missing d mem]
        exact Bool.false_ne_true
      rw [none]
    · rfl

theorem size_remove (filled : r.size = r.states.length) (e : ε) :
    (r.remove e).size = (r.remove e).states.length ∧
      (r.remove e).size = r.size - min 1 (r.states.count e) := by
  rcases divided.remove_cases (located · e) with ⟨d, same, perm, size⟩ | ⟨unchanged, missing⟩
  · have length := perm.length_eq
    have there : r.states.count e = (r.remove e).states.count e + 1 := by
      rw [perm.count_eq, List.count_cons, if_pos same]
    rw [List.length_cons] at length
    omega
  · have none : r.states.count e = 0 := by
      apply List.countP_eq_zero.mpr
      intro d mem
      rw [missing d mem]
      exact Bool.false_ne_true
    rw [unchanged, none]
    exact ⟨filled, rfl⟩

theorem count_reached (e f : ε) : (r.reached e).count f =
    if Located.point? f = Located.point? e then r.states.count f else 0 := by
  rw [divided.reached_eq, List.count, List.countP_filter]
  split
  · rename_i here
    apply List.countP_congr
    intro d _
    have same : (d == f) = true → Located.point? d = Located.point? e := fun equal =>
      (located d f equal).trans here
    simpa using same
  · rename_i elsewhere
    apply List.countP_eq_zero.mpr
    intro d _
    have other : (d == f) = true → Located.point? d ≠ Located.point? e := fun equal here =>
      elsewhere ((located d f equal).symm.trans here)
    simpa using other

end Count

/-! ### The two kinds side by side -/

/-- The same waitlist, and the same states equally often. -/
structure Matches (r r' : ReachedSet ε π) : Prop where
  left : r.Tidy
  right : r'.Tidy
  waitlist : r.waitlist = r'.waitlist
  size : r.size = r'.size
  counts : ∀ e, r.states.count e = r'.states.count e

theorem matches_empty : Matches (ReachedSet.empty true : ReachedSet ε π) (ReachedSet.empty false) where
  left := ⟨partitioned_empty true, rfl⟩
  right := ⟨partitioned_empty false, rfl⟩
  waitlist := rfl
  size := rfl
  counts _ := rfl

def discard (r : ReachedSet ε π) (e : ε) : ReachedSet ε π :=
  { r.remove e with waitlist := (r.remove e).waitlist.filter fun entry => entry.1 != e }

theorem replace_eq (r : ReachedSet ε π) {old new : ε} (p : π)
    (here : Located.point? old = Located.point? new) :
    r.replace old new p = .ok ((r.discard old).add new p) := by
  have keys : r.key old = r.key new := by simp only [key, here]
  rw [replace, if_pos keys]
  rfl

theorem waitlist_remove (r : ReachedSet ε π) (e : ε) : (r.remove e).waitlist = r.waitlist := by
  unfold remove
  split <;> rfl

section Match

variable {r r' : ReachedSet ε π}

theorem Matches.add (same : Matches r r') (e : ε) (p : π) : Matches (r.add e p) (r'.add e p) where
  left := same.left.add e p
  right := same.right.add e p
  waitlist := by simp only [ReachedSet.add, same.waitlist]
  size := by simp only [ReachedSet.add, same.size]
  counts f := by rw [count_add, count_add, same.counts]

variable (located : EqualLocated ε)
include located

theorem Tidy.discard (tidy : r.Tidy) (e : ε) : (r.discard e).Tidy := by
  obtain ⟨filled, -⟩ := size_remove located tidy.divided tidy.filled e
  have divided := tidy.divided.remove e
  exact ⟨⟨divided.keys, divided.inside⟩, filled⟩

variable [EquivBEq ε]

theorem Matches.discard (same : Matches r r') (e : ε) : Matches (r.discard e) (r'.discard e) where
  left := same.left.discard located e
  right := same.right.discard located e
  waitlist := by
    simp only [ReachedSet.discard, waitlist_remove, same.waitlist]
  size := by
    obtain ⟨-, left⟩ := size_remove located same.left.divided same.left.filled e
    obtain ⟨-, right⟩ := size_remove located same.right.divided same.right.filled e
    show (r.remove e).size = (r'.remove e).size
    rw [left, right, same.size, same.counts]
  counts f := by
    have left := count_remove located same.left.divided e f
    have right := count_remove located same.right.divided e f
    show (r.remove e).states.count f = (r'.remove e).states.count f
    rw [left, right, same.counts]

theorem Matches.step (same : Matches r r') (edit : Edit ε π) :
    ∃ s s' x, edit.apply r = .ok (s, x) ∧ edit.apply r' = .ok (s', x) ∧ Matches s s' := by
  cases edit with
  | add e p => exact ⟨_, _, none, rfl, rfl, same.add e p⟩
  | replace old new p here =>
    refine ⟨_, _, none, ?_, ?_, (same.discard located old).add new p⟩
    · rw [Edit.apply, replace_eq r p here]
      rfl
    · rw [Edit.apply, replace_eq r' p here]
      rfl
  | pop =>
    simp only [Edit.apply, pop?]
    rw [← same.waitlist]
    cases waiting : r.waitlist with
    | nil => exact ⟨r, r', none, rfl, rfl, same⟩
    | cons x rest =>
      refine ⟨_, _, some x, rfl, rfl, ?_⟩
      exact ⟨⟨⟨same.left.divided.keys, same.left.divided.inside⟩, same.left.filled⟩,
        ⟨⟨same.right.divided.keys, same.right.divided.inside⟩, same.right.filled⟩, rfl, same.size,
        same.counts⟩

/-- No operation breaks a contract, and the sets stay the same up to the order of their states. -/
theorem Matches.run (same : Matches r r') (edits : List (Edit ε π)) :
    ∃ s s' xs, Edit.applyAll r edits = .ok (s, xs) ∧ Edit.applyAll r' edits = .ok (s', xs) ∧
      Matches s s' := by
  induction edits generalizing r r' with
  | nil => exact ⟨r, r', [], rfl, rfl, same⟩
  | cons edit edits ih =>
    obtain ⟨s, s', x, left, right, same⟩ := same.step located edit
    obtain ⟨t, t', xs, lefts, rights, same⟩ := ih same
    exact ⟨t, t', x :: xs, Edit.applyAll_cons left lefts, Edit.applyAll_cons right rights, same⟩

theorem Matches.reached (same : Matches r r') (e : ε) : Rearranged (r.reached e) (r'.reached e) := by
  apply rearranged_of_count
  intro f
  rw [count_reached located same.left.divided, count_reached located same.right.divided,
    same.counts]

end Match

theorem agree [EquivBEq ε] (located : EqualLocated ε) (edits : List (Edit ε π)) : Edit.Agree edits := by
  obtain ⟨r, r', popped, left, right, same⟩ := matches_empty.run located edits
  have stored := same.left.filled
  have stored' := same.right.filled
  rw [states, List.length_map] at stored stored'
  refine ⟨r, r', popped, left, right, same.waitlist, same.size, stored, stored', fun e => ?_⟩
  have rearranged := same.reached located e
  exact ⟨rearranged, fun _ => rearranged.perm⟩

end ReachedSet

/-! ### Composite states -/

/-- What equality of abstractions looks at. -/
def Abstraction.core (a : Abstraction) : Abstraction := ⟨a.region, .bool true, .bool true, a.block⟩

def PredicateState.core : PredicateState → PredicateState
  | .bottom => .bottom
  | .boundary a path => .boundary a.core path
  | .inside a path => .inside a.core path

def Part.core : Part → Part
  | .predicate s => .predicate s.core
  | p => p

theorem Abstraction.beq_iff_core {a b : Abstraction} : (a == b) = true ↔ a.core = b.core := by
  simp [BEq.beq, same, core]

theorem PredicateState.beq_iff_core {s t : PredicateState} : (s == t) = true ↔ s.core = t.core := by
  cases s <;> cases t <;>
    simp [BEq.beq, instBEqPredicateState.beq, core, ← Abstraction.beq_iff_core]

theorem Part.beq_iff_core {p q : Part} : (p == q) = true ↔ p.core = q.core := by
  cases p <;> cases q <;>
    simp [BEq.beq, instBEqPart.beq, core, ← PredicateState.beq_iff_core]

theorem Part.list_beq_iff_core {ps qs : List Part} :
    (ps == qs) = true ↔ ps.map core = qs.map core := by
  induction ps generalizing qs with
  | nil => cases qs <;> simp
  | cons p ps ih =>
    cases qs with
    | nil => simp
    | cons q qs => simp [List.cons_beq_cons, beq_iff_core, ih]

namespace CompositeState

theorem beq_iff_core {s t : CompositeState} :
    (s == t) = true ↔ s.stack = t.stack ∧ s.parts.map Part.core = t.parts.map Part.core := by
  rw [← Part.list_beq_iff_core]
  show (decide (s.stack = t.stack) && s.parts == t.parts) = true ↔ _
  rw [Bool.and_eq_true, decide_eq_true_iff]

instance : EquivBEq CompositeState where
  rfl := beq_iff_core.mpr ⟨rfl, rfl⟩
  symm same :=
    have ⟨stack, parts⟩ := beq_iff_core.mp same
    beq_iff_core.mpr ⟨stack.symm, parts.symm⟩
  trans first second :=
    have ⟨stack, parts⟩ := beq_iff_core.mp first
    have ⟨stack', parts'⟩ := beq_iff_core.mp second
    beq_iff_core.mpr ⟨stack.trans stack', parts.trans parts'⟩

theorem equalLocated : ReachedSet.EqualLocated CompositeState := by
  intro s t same
  obtain ⟨-, parts⟩ := beq_iff_core.mp same
  have kept : ∀ p : Part, p.core.point? = p.point? := by
    intro p
    cases p <;> rfl
  have point : ∀ u : CompositeState,
      Located.point? u = (u.parts.map Part.core).head?.bind Part.point? := by
    intro u
    show u.parts.head?.bind Part.point? = _
    cases u.parts with
    | nil => rfl
    | cons p _ => exact (kept p).symm
  rw [point, point, parts]

/-- Numbers and the way formulas are written do not matter to equality, and the sets that a composite
analysis explores agree up to them. -/
theorem sets_agree {π : Type} (edits : List (ReachedSet.Edit CompositeState π)) :
    ReachedSet.Edit.Agree edits :=
  ReachedSet.agree equalLocated edits

end CompositeState

namespace Composite

variable {σ π : Type}

theorem point_answers (x : Point) :
    CompositeM.shared (σ := σ) ((Analysis.locations (π := π)).onParts.isBottom (.location (.point x))) =
        pure false ∧
      CompositeM.shared (σ := σ) ((Analysis.locations (π := π)).onParts.covers (.location (.point x))
        (.location (.point x))) = pure true := by
  constructor
  · rfl
  · have covered : (LocationState.point x).le (.point x) = true := by simp [LocationState.le]
    show CompositeM.shared (pure ((LocationState.point x).le (.point x))) = _
    rw [covered]
    rfl

theorem anyOf_congr {ε : Type} {test test' : ε → AnalysisM σ Bool} {es : List ε}
    (same : ∀ e ∈ es, test e = test' e) : anyOf test es = anyOf test' es := by
  induction es with
  | nil => rfl
  | cons e es ih =>
    obtain ⟨here, rest⟩ := List.forall_mem_cons.mp same
    rw [anyOf, anyOf, here, ih rest]

theorem parts_of_point {s : CompositeState} {x : Point} (here : s.point? = some x) :
    ∃ rest, s.parts = .location (.point x) :: rest := by
  unfold CompositeState.point? at here
  cases parts : s.parts with
  | nil => simp [parts] at here
  | cons p rest =>
    rw [parts] at here
    cases p with
    | location l =>
      cases l with
      | point y =>
        cases here
        exact ⟨rest, rfl⟩
      | bottom => cases here
      | top => cases here
    | sign _ => cases here
    | explicit _ => cases here
    | predicate _ => cases here

theorem covers_specialized (peers : List (Component σ π)) {s r : CompositeState} {x : Point}
    (here : s.point? = some x) (there : r.point? = some x) :
    (⟨Analysis.locations.onParts :: peers, true⟩ : Composite σ π).covers s r =
      (⟨Analysis.locations.onParts :: peers, false⟩ : Composite σ π).covers s r := by
  obtain ⟨ps, own⟩ := parts_of_point here
  obtain ⟨qs, other⟩ := parts_of_point there
  unfold covers
  rw [own, other]
  simp only [firstChecked, List.drop, allParts, (point_answers x).2, pure_bind, if_true,
    Bool.false_eq_true, if_false]

theorem stop_specialized (peers : List (Component σ π)) {s : CompositeState} {x : Point}
    (here : s.point? = some x) {reached : List CompositeState}
    (there : ∀ r ∈ reached, r.point? = some x) :
    (⟨Analysis.locations.onParts :: peers, true⟩ : Composite σ π).stop s reached =
      (⟨Analysis.locations.onParts :: peers, false⟩ : Composite σ π).stop s reached := by
  have covered := anyOf_congr fun r mem => covers_specialized peers here (there r mem)
  obtain ⟨ps, own⟩ := parts_of_point here
  unfold stop
  rw [covered, own]
  simp only [firstChecked, List.drop, anyCheckedBottom, (point_answers x).1, pure_bind, if_true,
    Bool.false_eq_true, if_false]

end Composite

/-! ### Both -/

open ReachedSet (EqualLocated Edit)

/-- Whatever operations a specialized and a plain reached set go through, they agree. Among states at one
point, a composite analysis computes the same answer whether they are covered, with either kind. -/
theorem specialization_unobservable {ε π : Type} [Located ε] [BEq ε] [EquivBEq ε]
    (located : EqualLocated ε) :
    (∀ edits : List (Edit ε π), Edit.Agree edits) ∧
    ∀ (σ ρ : Type) (peers : List (Component σ ρ)) (x : Point) (s : CompositeState)
      (reached : List CompositeState), s.point? = some x → (∀ r ∈ reached, r.point? = some x) →
      (⟨Analysis.locations.onParts :: peers, true⟩ : Composite σ ρ).stop s reached =
        (⟨Analysis.locations.onParts :: peers, false⟩ : Composite σ ρ).stop s reached := by
  constructor
  · exact ReachedSet.agree located
  · intro σ ρ peers x s reached here there
    exact Composite.stop_specialized peers here there

/-- Three states at point 1, the first of which is replaced, and one at point 2. -/
def replacement : List (Edit Analysis.Level Unit) :=
  [.add ⟨⟨1⟩, 1⟩ (), .add ⟨⟨1⟩, 2⟩ (), .add ⟨⟨1⟩, 3⟩ (), .add ⟨⟨2⟩, 0⟩ (), .pop,
    .replace ⟨⟨1⟩, 1⟩ ⟨⟨1⟩, 4⟩ () rfl]

/-- The last state of the partition, or of all, takes the place of the replaced one. -/
theorem specialization_unobservable_replacement :
    (∃ r r' popped, Edit.applyAll (.empty true) replacement = .ok (r, popped) ∧
      Edit.applyAll (.empty false) replacement = .ok (r', popped) ∧
      r.reached ⟨⟨1⟩, 0⟩ = [⟨⟨1⟩, 3⟩, ⟨⟨1⟩, 2⟩, ⟨⟨1⟩, 4⟩] ∧
      r'.reached ⟨⟨1⟩, 0⟩ = [⟨⟨1⟩, 2⟩, ⟨⟨1⟩, 3⟩, ⟨⟨1⟩, 4⟩] ∧
      (r.reached ⟨⟨1⟩, 0⟩).Perm (r'.reached ⟨⟨1⟩, 0⟩) ∧ r.size = 4 ∧ r'.size = 4) ∧
    ∀ known : ExplicitState,
      (⟨[Analysis.locations.onParts, Analysis.values.onParts], true⟩ : Composite Unit Unit).stop
          ⟨1, [.location (.point ⟨0⟩), .explicit known], .empty⟩
          [⟨2, [.location (.point ⟨0⟩), .explicit .top], .empty⟩] =
        (⟨[Analysis.locations.onParts, Analysis.values.onParts], false⟩ : Composite Unit Unit).stop
          ⟨1, [.location (.point ⟨0⟩), .explicit known], .empty⟩
          [⟨2, [.location (.point ⟨0⟩), .explicit .top], .empty⟩] := by
  have located : EqualLocated Analysis.Level := by
    intro e f same
    rw [eq_of_beq same]
  obtain ⟨sets, stops⟩ := specialization_unobservable (π := Unit) located
  constructor
  · obtain ⟨r, r', popped, left, right, -, size, stored, -, same⟩ := sets replacement
    have left' : (Edit.applyAll (.empty true) replacement).toOption.map
        (fun x => (x.1.reached ⟨⟨1⟩, 0⟩, x.1.size)) =
          some ([⟨⟨1⟩, 3⟩, ⟨⟨1⟩, 2⟩, ⟨⟨1⟩, 4⟩], 4) := by decide
    have right' : (Edit.applyAll (.empty false) replacement).toOption.map
        (fun x => (x.1.reached ⟨⟨1⟩, 0⟩, x.1.size)) =
          some ([⟨⟨1⟩, 2⟩, ⟨⟨1⟩, 3⟩, ⟨⟨1⟩, 4⟩], 4) := by decide
    rw [left] at left'
    rw [right] at right'
    obtain ⟨states, count⟩ := Prod.mk.inj (Option.some.inj left')
    obtain ⟨states', count'⟩ := Prod.mk.inj (Option.some.inj right')
    exact ⟨r, r', popped, left, right, states, states', (same _).2 inferInstance, count, count'⟩
  · intro known
    apply stops Unit Unit [Analysis.values.onParts] ⟨0⟩
    · rfl
    · simp [CompositeState.point?, Part.point?, LocationState.point?]

end ProgramAnalysis
