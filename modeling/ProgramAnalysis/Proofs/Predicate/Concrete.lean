import ProgramAnalysis.Proofs.Diagram.Support
import ProgramAnalysis.Proofs.PathFormula.Extend
import ProgramAnalysis.Proofs.Predicate.Registry

/-! The formula of a region is the region with its variables read as atoms. It is made node by node, and
the formulas that are kept for nodes met before, in this translation or an earlier one, are those of the
nodes. Nothing is used of the atoms but that they have truth values, so the formula has the value of the
region for any values of the atoms; for the values that numbers give them, it holds exactly for the states
in the region. -/
namespace ProgramAnalysis

namespace Registry

variable {reg reg' : Registry} {L : Vocabulary} {ops : Operators} {r : Ref} {f : Formula} {x : Nat}
  {known known' : Std.HashMap Ref Formula}

/-- The values of region variables when the leaves of atoms have the given ones. -/
def spelled (reg : Registry) (leaf : Formula → Bool) : Valuation :=
  fun x => ((atomOf reg.predicates reg.diagram x).map (·.value leaf)).getD false

theorem spelled_holds (reg : Registry) (ops : Operators) (m : Assignment) :
    reg.spelled (fun g => g.holds ops m) = reg.valuation ops m := by
  funext x
  simp only [spelled, valuation, Formula.value_holds]

/-- The formula has the value of the function, and says nothing but the atoms that the function
tests. -/
structure Spells (reg : Registry) (r : Ref) (f : Formula) : Prop where
  value : ∀ leaf, f.value leaf = reg.diagram.eval (reg.spelled leaf) r
  leaves : ∀ g ∈ f.leaves, ∃ p ∈ reg.predicates,
    reg.diagram.Tests r (reg.diagram.var p.marker.ref) ∧ g ∈ p.atom.leaves

theorem exists_of_atomOf {ps : List Predicate} {d : Diagram} {atom : Formula}
    (found : atomOf ps d x = some atom) :
    ∃ p ∈ ps, d.var p.marker.ref = x ∧ p.atom = atom := by
  obtain ⟨p, here, same⟩ := Option.map_eq_some_iff.mp found
  exact ⟨p, List.mem_of_find?_eq_some here, by simpa using List.find?_some here, same⟩

theorem value_split (leaf : Formula → Bool) (atom high low : Formula) :
    (Formula.disj [.conj [atom, high], .conj [atom.negate, low]]).value leaf =
      if atom.value leaf then high.value leaf else low.value leaf := by
  simp only [Formula.disj, Formula.conj, Formula.value_join, Formula.valueNary,
    Formula.value_negate, Connective.combine, Connective.unit]
  cases atom.value leaf <;> simp

theorem leaves_split {atom high low g : Formula}
    (mem : g ∈ (Formula.disj [.conj [atom, high], .conj [atom.negate, low]]).leaves) :
    g ∈ atom.leaves ∨ g ∈ high.leaves ∨ g ∈ low.leaves := by
  obtain ⟨side, ofSide, inSide⟩ := Formula.leaves_join mem
  rcases List.mem_pair.mp ofSide with rfl | rfl
  · obtain ⟨part, ofPart, inPart⟩ := Formula.leaves_join inSide
    rcases List.mem_pair.mp ofPart with same | same
    · exact .inl (same ▸ inPart)
    · exact .inr (.inl (same ▸ inPart))
  · obtain ⟨part, ofPart, inPart⟩ := Formula.leaves_join inSide
    rcases List.mem_pair.mp ofPart with same | same
    · rw [same, Formula.leaves_negate] at inPart
      exact .inl inPart
    · exact .inr (.inr (same ▸ inPart))

theorem Spells.split {n : Node} {atom high low : Formula} (inner : reg.diagram.node? r = some n)
    (isAtom : atomOf reg.predicates reg.diagram n.var = some atom)
    (onHigh : reg.Spells (reg.diagram.high r) high) (onLow : reg.Spells (reg.diagram.low r) low) :
    reg.Spells r (.disj [.conj [atom, high], .conj [atom.negate, low]]) := by
  constructor
  · intro leaf
    have root : reg.spelled leaf n.var = atom.value leaf := by simp [spelled, isAtom]
    rw [value_split, onHigh.value, onLow.value, Diagram.eval_of_node? inner, root]
  · intro g mem
    rcases leaves_split mem with mem | mem | mem
    · obtain ⟨p, memP, var, rfl⟩ := exists_of_atomOf isAtom
      exact ⟨p, memP, var ▸ .root inner, mem⟩
    · obtain ⟨p, memP, tests, mem⟩ := onHigh.leaves g mem
      exact ⟨p, memP, .high inner tests, mem⟩
    · obtain ⟨p, memP, tests, mem⟩ := onLow.leaves g mem
      exact ⟨p, memP, .low inner tests, mem⟩

theorem spells_terminal (terminal : reg.diagram.node? r = none) (has : reg.diagram.Has r) :
    reg.Spells r (.bool (r = .one)) := by
  refine ⟨fun leaf => ?_, by simp [Formula.leaves]⟩
  rcases Diagram.eq_constant_of_terminal has terminal with rfl | rfl
  · simp [Formula.value]
  · simp [Formula.value, show Ref.zero ≠ Ref.one by decide]

/-- The formula of a function, read off the diagram. -/
inductive Writes (reg : Registry) : Ref → Formula → Prop
  | terminal {r : Ref} (terminal : reg.diagram.node? r = none) : Writes reg r (.bool (r = .one))
  | split {r : Ref} {n : Node} {atom high low : Formula} (inner : reg.diagram.node? r = some n)
      (isAtom : atomOf reg.predicates reg.diagram n.var = some atom)
      (onHigh : Writes reg (reg.diagram.high r) high) (onLow : Writes reg (reg.diagram.low r) low) :
      Writes reg r (.disj [.conj [atom, high], .conj [atom.negate, low]])

theorem Writes.spells (writes : reg.Writes r f) (ordered : reg.diagram.Ordered)
    (has : reg.diagram.Has r) : reg.Spells r f := by
  induction writes with
  | terminal terminal => exact spells_terminal terminal has
  | split inner isAtom _ _ ihHigh ihLow =>
    exact .split inner isAtom (ihHigh (ordered.high_known has)) (ihLow (ordered.low_known has))

theorem Writes.unique {g : Formula} (first : reg.Writes r f) (second : reg.Writes r g) : f = g := by
  induction first generalizing g with
  | terminal terminal =>
    cases second with
    | terminal => rfl
    | split inner => cases terminal.symm.trans inner
  | split inner isAtom _ _ ihHigh ihLow =>
    cases second with
    | terminal terminal => cases terminal.symm.trans inner
    | split inner' isAtom' onHigh onLow =>
      cases inner.symm.trans inner'
      cases isAtom.symm.trans isAtom'
      rw [ihHigh onHigh, ihLow onLow]

/-- Every formula that is kept is that of its function. -/
def Keeps (reg : Registry) (known : Std.HashMap Ref Formula) : Prop :=
  ∀ s g, known[s]? = some g → reg.diagram.Has s ∧ reg.Writes s g

theorem keeps_empty (reg : Registry) : reg.Keeps ∅ := fun s g found => by simp at found

theorem Keeps.insert (keeps : reg.Keeps known) (has : reg.diagram.Has r) (writes : reg.Writes r f) :
    reg.Keeps (known.insert r f) := by
  intro s g found
  rw [Std.HashMap.getElem?_insert] at found
  split at found
  · rename_i same
    cases found
    exact eq_of_beq same ▸ ⟨has, writes⟩
  · exact keeps s g found

theorem Adds.atomOf {atom : Formula} (adds : reg.Adds reg') (valid : reg.Valid)
    (isAtom : atomOf reg.predicates reg.diagram x = some atom) :
    Registry.atomOf reg'.predicates reg'.diagram x = some atom := by
  obtain ⟨p, found, rfl⟩ := Option.map_eq_some_iff.mp isAtom
  obtain ⟨more, whole⟩ := adds.predicates
  have again : reg.predicates.find? (fun q => reg'.diagram.var q.marker.ref = x) = some p := by
    rw [← found]
    refine List.find?_congr fun q mem => ?_
    rw [adds.diagram.var_eq (valid.marks q mem).has]
  unfold Registry.atomOf
  rw [← whole, List.find?_append, again]
  rfl

/-- A formula stays right when predicates and nodes are added. -/
theorem Writes.later (writes : reg.Writes r f) (adds : reg.Adds reg') (valid : reg.Valid)
    (has : reg.diagram.Has r) : reg'.Writes r f := by
  have ordered := valid.diagram.ordered
  induction writes with
  | terminal terminal =>
    rcases Diagram.eq_constant_of_terminal has terminal with rfl | rfl
    · exact .terminal (Diagram.node?_eq_none_of_index _ (by decide))
    · exact .terminal (Diagram.node?_eq_none_of_index _ (by decide))
  | split inner isAtom _ _ ihHigh ihLow =>
    have onHigh := ihHigh (ordered.high_known has)
    have onLow := ihLow (ordered.low_known has)
    have inner' := adds.diagram.node?_eq has ▸ inner
    rw [← adds.diagram.high_eq has] at onHigh
    rw [← adds.diagram.low_eq has] at onLow
    exact .split inner' (adds.atomOf valid isAtom) onHigh onLow

theorem Keeps.later (keeps : reg.Keeps known) (adds : reg.Adds reg') (valid : reg.Valid) :
    reg'.Keeps known := fun s g found =>
  ⟨adds.diagram.has (keeps s g found).1, (keeps s g found).2.later adds valid (keeps s g found).1⟩

theorem concrete_writes {r : Ref} {f : Formula} {known known' : Std.HashMap Ref Formula}
    (ordered : reg.diagram.Ordered) (has : reg.diagram.Has r) (keeps : reg.Keeps known)
    (made : concrete reg.predicates reg.diagram r known = .ok (f, known')) :
    reg.Writes r f ∧ reg.Keeps known' := by
  rw [concrete] at made
  split at made
  · rename_i terminal
    cases made
    exact ⟨.terminal terminal, keeps⟩
  rename_i n inner
  have smaller := Diagram.weight_lt_of_node? inner
  split at made
  · rename_i g found
    cases made
    exact ⟨(keeps _ _ found).2, keeps⟩
  split at made
  · cases made
  rename_i atom isAtom
  obtain ⟨⟨high, known₁⟩, madeHigh, made⟩ := Outcome.exists_of_bind made
  obtain ⟨⟨low, known₂⟩, madeLow, made⟩ := Outcome.exists_of_bind made
  cases made
  obtain ⟨onHigh, keeps₁⟩ := concrete_writes ordered (ordered.high_known has) keeps madeHigh
  obtain ⟨onLow, keeps₂⟩ := concrete_writes ordered (ordered.low_known has) keeps₁ madeLow
  have writes := Writes.split inner isAtom onHigh onLow
  exact ⟨writes, keeps₂.insert has writes⟩
termination_by r.weight

/-- Only a variable that stands for no predicate has no formula. -/
theorem exists_concrete {r : Ref} (known : Std.HashMap Ref Formula)
    (covered : ∀ x, reg.diagram.Tests r x → ∃ p ∈ reg.predicates,
      reg.diagram.var p.marker.ref = x) :
    ∃ f known', concrete reg.predicates reg.diagram r known = .ok (f, known') := by
  rw [concrete]
  split
  · exact ⟨_, _, rfl⟩
  rename_i n inner
  have smaller := Diagram.weight_lt_of_node? inner
  split
  · exact ⟨_, _, rfl⟩
  obtain ⟨high, known₁, madeHigh⟩ := exists_concrete known fun x tests => covered x (.high inner tests)
  obtain ⟨low, known₂, madeLow⟩ := exists_concrete known₁ fun x tests => covered x (.low inner tests)
  split
  · rename_i none
    obtain ⟨p, mem, var⟩ := covered n.var (.root inner)
    have absent := List.find?_eq_none.mp (Option.map_eq_none_iff.mp none) p mem
    simp [var] at absent
  · rw [madeHigh]
    simp only [bind, Except.bind, madeLow]
    exact ⟨_, _, rfl⟩
termination_by r.weight

theorem toFormula_writes (ordered : reg.diagram.Ordered) {r : Region} (has : reg.diagram.Has r.ref)
    (made : reg.toFormula r = .ok f) : reg.Writes r.ref f := by
  obtain ⟨⟨g, known⟩, inner, made⟩ := Outcome.exists_of_bind made
  cases made
  exact (concrete_writes ordered has reg.keeps_empty inner).1

theorem toFormula_spells (ordered : reg.diagram.Ordered) {r : Region} (has : reg.diagram.Has r.ref)
    (made : reg.toFormula r = .ok f) : reg.Spells r.ref f :=
  (toFormula_writes ordered has made).spells ordered has

theorem exists_toFormula {r : Region} (covered : ∀ x, reg.diagram.Tests r.ref x →
    ∃ p ∈ reg.predicates, reg.diagram.var p.marker.ref = x) : ∃ f, reg.toFormula r = .ok f := by
  obtain ⟨f, known, made⟩ := exists_concrete ∅ covered
  refine ⟨f, ?_⟩
  unfold toFormula
  rw [made]
  rfl

/-- What was kept from earlier translations does not change the formula. -/
theorem Keeps.exists_concrete (keeps : reg.Keeps known) (ordered : reg.diagram.Ordered) {r : Region}
    (has : reg.diagram.Has r.ref) (covered : ∀ x, reg.diagram.Tests r.ref x →
      ∃ p ∈ reg.predicates, reg.diagram.var p.marker.ref = x) :
    ∃ f known', concrete reg.predicates reg.diagram r.ref known = .ok (f, known') ∧
      reg.toFormula r = .ok f := by
  obtain ⟨f, known', made⟩ := Registry.exists_concrete known covered
  obtain ⟨g, alone⟩ := exists_toFormula covered
  have same := (concrete_writes ordered has keeps made).1.unique (toFormula_writes ordered has alone)
  exact ⟨f, known', made, same ▸ alone⟩

theorem toFormula_means (ordered : reg.diagram.Ordered)
    (atoms : ∀ p ∈ reg.predicates, p.atom.Within L) {r : Region} (has : reg.diagram.Has r.ref)
    (made : reg.toFormula r = .ok f) :
    f.Within L ∧ ∀ m, f.holds ops m = reg.holdsIn ops m r := by
  have spells := toFormula_spells ordered has made
  constructor
  · apply Formula.within_of_leaves
    intro g mem
    obtain ⟨p, memP, -, inside⟩ := spells.leaves g mem
    exact Formula.within_of_mem_leaves p.atom (atoms p memP) inside
  · intro m
    rw [← Formula.value_holds, spells.value, spelled_holds, holdsIn]

end Registry

end ProgramAnalysis
