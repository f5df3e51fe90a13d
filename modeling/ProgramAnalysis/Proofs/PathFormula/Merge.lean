import ProgramAnalysis.Proofs.PathFormula.Extend

/-! Joined paths. A model of one side is a model of that side over the common indices once every variable
keeps its value from the side's index on. -/
namespace ProgramAnalysis

namespace PathFormula

variable {ops : Operators} {m : Assignment} {s : Store} {p q : PathFormula} {ssa : SsaMap}
  {L : Vocabulary}

def lifts (p q : PathFormula) (side : Nat × Nat → Nat) : List Formula :=
  (p.ssa.differences q.ssa).filterMap fun d =>
    let (i, j) := indicesOf d
    lift? d.name (side (i, j)) (Nat.max i j)

theorem merge_left (p q : PathFormula) :
    (p.merge q).left = .conj (p.formula :: lifts p q Prod.fst) := rfl

theorem merge_right (p q : PathFormula) :
    (p.merge q).right = .conj (q.formula :: lifts p q Prod.snd) := rfl

/-- An equation says that a variable keeps its value from the index of its side on. -/
theorem of_mem_lifts {side : Nat × Nat → Nat} {f : Formula} (mem : f ∈ lifts p q side) :
    ∃ x, side (p.ssa.index x, q.ssa.index x) ≤ Nat.max (p.ssa.index x) (q.ssa.index x) ∧
      f = .equals (.indexed x (Nat.max (p.ssa.index x) (q.ssa.index x)))
        (.indexed x (side (p.ssa.index x, q.ssa.index x))) := by
  obtain ⟨d, inside, found⟩ := List.mem_filterMap.mp mem
  have indices : indicesOf d = (p.ssa.index d.name, q.ssa.index d.name) :=
    SsaMap.indices_of_mem_differences inside
  simp only [indices, lift?] at found
  split at found
  · rename_i lower
    cases found
    exact ⟨d.name, lower.le, rfl⟩
  · cases found

theorem lifts_hold {side : Nat × Nat → Nat}
    (own : ∀ x, side (p.ssa.index x, q.ssa.index x) = ssa.index x) :
    ∀ f ∈ lifts p q side, f.holds ops (m.hold ssa) = true := by
  intro f mem
  obtain ⟨x, lower, rfl⟩ := of_mem_lifts mem
  rw [own] at lower ⊢
  rw [Formula.holds_equals]
  exact (Assignment.hold_later (m.at_store ssa) lower).trans
    (Assignment.hold_later (m.at_store ssa) (Nat.le_refl _)).symm

theorem lifts_within {side : Nat × Nat → Nat} (positiveP : p.ssa.Positive) (positiveQ : q.ssa.Positive) :
    ∀ f ∈ lifts p q side, f.Within (L.upTo (p.ssa.max q.ssa)) := by
  intro f mem
  obtain ⟨x, lower, rfl⟩ := of_mem_lifts mem
  have index := SsaMap.index_max (x := x) positiveP positiveQ
  exact Formula.within_compare ⟨_, rfl, index.ge⟩ ⟨_, rfl, lower.trans index.ge⟩

theorem lifts_below {side : Nat × Nat → Nat} (positiveP : p.ssa.Positive) (positiveQ : q.ssa.Positive) :
    ∀ f ∈ lifts p q side, f.Within (p.ssa.max q.ssa).below := fun f mem =>
  (lifts_within (L := .arithmetic) positiveP positiveQ f mem).mono (SsaMap.below_includes_upTo _)

theorem merge_left_holds (within : p.formula.Within p.ssa.below) (holds : p.formula.holds ops m = true) :
    (p.merge q).left.holds ops (m.hold p.ssa) = true := by
  rw [merge_left, Formula.holds_conj]
  refine List.forall_mem_cons.mpr ⟨?_, lifts_hold fun _ => rfl⟩
  exact (Assignment.holds_hold within).trans holds

theorem merge_right_holds (within : q.formula.Within q.ssa.below) (holds : q.formula.holds ops m = true) :
    (p.merge q).right.holds ops (m.hold q.ssa) = true := by
  rw [merge_right, Formula.holds_conj]
  refine List.forall_mem_cons.mpr ⟨?_, lifts_hold fun _ => rfl⟩
  exact (Assignment.holds_hold within).trans holds

theorem merge_left_below (positiveP : p.ssa.Positive) (positiveQ : q.ssa.Positive)
    (within : p.formula.Within p.ssa.below) : (p.merge q).left.Within (p.ssa.max q.ssa).below := by
  have le := SsaMap.le_max_left positiveP positiveQ
  exact Formula.within_join (List.forall_mem_cons.mpr
    ⟨within.mono le.below, lifts_below positiveP positiveQ⟩)

theorem merge_right_below (positiveP : p.ssa.Positive) (positiveQ : q.ssa.Positive)
    (within : q.formula.Within q.ssa.below) : (p.merge q).right.Within (p.ssa.max q.ssa).below := by
  have le := SsaMap.le_max_right positiveP positiveQ
  exact Formula.within_join (List.forall_mem_cons.mpr
    ⟨within.mono le.below, lifts_below positiveP positiveQ⟩)

theorem Indexed.merge_left (indexedP : p.Indexed L) (indexedQ : q.Indexed L) :
    (p.merge q).left.Within (L.upTo (p.ssa.max q.ssa)) := by
  have le := SsaMap.le_max_left indexedP.positive indexedQ.positive
  exact Formula.within_join (List.forall_mem_cons.mpr
    ⟨indexedP.within.mono le.widens, lifts_within indexedP.positive indexedQ.positive⟩)

theorem Indexed.merge_right (indexedP : p.Indexed L) (indexedQ : q.Indexed L) :
    (p.merge q).right.Within (L.upTo (p.ssa.max q.ssa)) := by
  have le := SsaMap.le_max_right indexedP.positive indexedQ.positive
  exact Formula.within_join (List.forall_mem_cons.mpr
    ⟨indexedQ.within.mono le.widens, lifts_within indexedP.positive indexedQ.positive⟩)

theorem Indexed.disj (indexedP : p.Indexed L) (indexedQ : q.Indexed L) : (p.disj q).Indexed L where
  positive := indexedP.positive.max indexedQ.positive
  within := Formula.within_pair (indexedP.merge_left indexedQ) (indexedP.merge_right indexedQ)

theorem WellFormed.below (wellFormed : p.WellFormed) : p.formula.Within p.ssa.below :=
  wellFormed.within.mono (SsaMap.below_includes_upTo _)

theorem WellFormed.disj (wellFormedP : p.WellFormed) (wellFormedQ : q.WellFormed) :
    (p.disj q).WellFormed :=
  (wellFormedP.indexed.disj wellFormedQ.indexed).wellFormed

theorem disj_sound (wellFormedP : p.WellFormed) (wellFormedQ : q.WellFormed) (reads : m.At q.ssa s)
    (holds : q.formula.holds ops m = true) : ∃ m', Assignment.Agrees q.ssa m m' ∧
      m'.At (p.disj q).ssa s ∧ (p.disj q).formula.holds ops m' = true := by
  refine ⟨m.hold q.ssa, m.agrees_hold q.ssa,
    reads.hold (SsaMap.le_max_right wellFormedP.positive wellFormedQ.positive), ?_⟩
  have right := merge_right_holds (p := p) wellFormedQ.below holds
  exact Formula.holds_disj.mpr ⟨_, List.mem_cons_of_mem _ List.mem_cons_self, right⟩

end PathFormula

namespace Formula

variable {ops : Operators} {m : Assignment} {a b : Formula}

theorem holds_iff_conjuncts : a.holds ops m = true ↔ ∀ f ∈ a.conjuncts, f.holds ops m = true := by
  unfold conjuncts
  split
  · exact holdsNary_eq_unit_iff ops m .and _
  · simp

theorem holds_of_entailsSyntactically (entails : a.entailsSyntactically b = true)
    (holds : a.holds ops m = true) : b.holds ops m = true := by
  simp only [entailsSyntactically, Bool.or_eq_true, decide_eq_true_eq] at entails
  rcases entails with (rfl | rfl) | all
  · rfl
  · exact holds
  · rw [holds_iff_conjuncts] at holds ⊢
    intro f mem
    exact holds f (List.contains_iff_mem.mp (List.all_eq_true.mp all f mem))

end Formula

end ProgramAnalysis
