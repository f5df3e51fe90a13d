import Mathlib.Data.List.Find
import ProgramAnalysis.Predicate.Concrete
import ProgramAnalysis.Proofs.Diagram.Denotations
import ProgramAnalysis.Proofs.Formula.Vocabulary
import ProgramAnalysis.Proofs.Region

/-! Predicates and their regions. Every predicate has a region variable of its own, so values of the
variables of programs give values to region variables, and a region means the states whose values of the
predicates are in it. -/
namespace ProgramAnalysis

open Checked (Ensures)
open Diagram (Cofactor OnlyOn)

variable {ops : Operators} {m : Assignment} {d e : Diagram} {p q : Predicate}
  {reg reg' : Registry}

/-- The marker of a predicate is the function of its variable. -/
structure Predicate.Marks (d : Diagram) (p : Predicate) : Prop where
  has : d.Has p.marker.ref
  eval : ∀ v, d.eval v p.marker.ref = v (d.var p.marker.ref)

theorem Predicate.Marks.isVariable (marks : p.Marks d) : p.marker.IsVariable d :=
  ⟨marks.has, marks.eval⟩

theorem Predicate.Marks.grows (marks : p.Marks d) (valid : d.Valid) (grown : e.Extends d) :
    p.Marks e where
  has := grown.has marks.has
  eval v := by rw [grown.eval_valid valid marks.has, grown.var_eq marks.has, marks.eval]

theorem Predicate.name_eq (p : Predicate) : p.name = "PRED" ++ p.id.repr := by
  simp [name, toString]

theorem Predicate.id_of_name (same : p.name = q.name) : p.id = q.id := by
  have digits := congrArg String.toList same
  rw [name_eq, name_eq, String.toList_append, String.toList_append, Nat.toList_repr,
    Nat.toList_repr] at digits
  have equal := List.append_cancel_left digits
  rw [← Nat.ofDigitChars_ten_toDigits (n := p.id), equal, Nat.ofDigitChars_ten_toDigits]

namespace Registry

/-- Numbers and region variables tell predicates apart. -/
structure Valid (reg : Registry) : Prop where
  diagram : reg.diagram.Valid
  /-- Every variable was made with a node of its own. -/
  vars_le : reg.diagram.vars ≤ reg.diagram.nodes.size
  numbered : ∀ (i : Nat) (p : Predicate), reg.predicates[i]? = some p → p.id = i
  marks : ∀ p ∈ reg.predicates, p.Marks reg.diagram
  separate : ∀ p ∈ reg.predicates, ∀ q ∈ reg.predicates,
    reg.diagram.var p.marker.ref = reg.diagram.var q.marker.ref → p = q

theorem Valid.eq_of_id (valid : reg.Valid) (memP : p ∈ reg.predicates)
    (memQ : q ∈ reg.predicates) (same : p.id = q.id) : p = q := by
  obtain ⟨i, here⟩ := List.getElem?_of_mem memP
  obtain ⟨j, there⟩ := List.getElem?_of_mem memQ
  rw [valid.numbered i p here, valid.numbered j q there] at same
  subst same
  exact Option.some.inj (here.symm.trans there)

theorem Valid.ofName?_name (valid : reg.Valid) (mem : p ∈ reg.predicates) :
    reg.ofName? p.name = some p := by
  unfold ofName?
  cases found : reg.predicates.find? (·.name = p.name) with
  | none =>
    have absent := List.find?_eq_none.mp found p mem
    simp at absent
  | some q =>
    have name : q.name = p.name := by simpa using List.find?_some found
    rw [valid.eq_of_id (List.mem_of_find?_eq_some found) mem (Predicate.id_of_name name)]

structure Grows (reg reg' : Registry) : Prop where
  predicates : reg'.predicates = reg.predicates
  diagram : reg.diagram.Grows reg'.diagram

theorem Grows.refl (valid : reg.Valid) : reg.Grows reg := ⟨rfl, .refl valid.diagram⟩

theorem Grows.trans {reg'' : Registry} (first : reg.Grows reg') (second : reg'.Grows reg'') :
    reg.Grows reg'' :=
  ⟨second.predicates.trans first.predicates, first.diagram.trans second.diagram⟩

theorem Valid.withDiagram (valid : reg.Valid) (diagram : e.Valid) (vars : e.vars ≤ e.nodes.size)
    (grown : e.Extends reg.diagram) : Valid ⟨e, reg.predicates⟩ := by
  have same (p : Predicate) (mem : p ∈ reg.predicates) :
      e.var p.marker.ref = reg.diagram.var p.marker.ref := grown.var_eq (valid.marks p mem).has
  refine ⟨diagram, vars, valid.numbered, ?_, ?_⟩
  · exact fun p mem => (valid.marks p mem).grows valid.diagram grown
  · intro p memP q memQ var
    simp only [same p memP, same q memQ] at var
    exact valid.separate p memP q memQ var

theorem Valid.grows (valid : reg.Valid) (grown : reg.Grows reg') : reg'.Valid := by
  have vars : reg'.diagram.vars ≤ reg'.diagram.nodes.size := by
    rw [grown.diagram.vars]
    exact Nat.le_trans valid.vars_le grown.diagram.nodes.size_le
  have valid' := valid.withDiagram grown.diagram.valid vars grown.diagram.nodes
  rw [← grown.predicates] at valid'
  exact valid'

/-- The values of region variables: those of the atoms that they stand for. -/
def valuation (reg : Registry) (ops : Operators) (m : Assignment) : Valuation :=
  fun x => ((atomOf reg.predicates reg.diagram x).map (·.holds ops m)).getD false

theorem Valid.atomOf_marker (valid : reg.Valid) (mem : p ∈ reg.predicates) :
    atomOf reg.predicates reg.diagram (reg.diagram.var p.marker.ref) = some p.atom := by
  unfold atomOf
  cases found : reg.predicates.find?
      fun q => reg.diagram.var q.marker.ref = reg.diagram.var p.marker.ref with
  | none =>
    have absent := List.find?_eq_none.mp found p mem
    simp at absent
  | some q =>
    have var := List.find?_some found
    rw [valid.separate q (List.mem_of_find?_eq_some found) p mem (of_decide_eq_true var)]
    rfl

theorem Valid.valuation_marker (valid : reg.Valid) (mem : p ∈ reg.predicates) (ops : Operators)
    (m : Assignment) :
    reg.valuation ops m (reg.diagram.var p.marker.ref) = p.atom.holds ops m := by
  simp [valuation, valid.atomOf_marker mem]

theorem Valid.atomOf_grows (valid : reg.Valid) (grown : reg.Grows reg') (x : Nat) :
    atomOf reg'.predicates reg'.diagram x = atomOf reg.predicates reg.diagram x := by
  unfold atomOf
  rw [grown.predicates]
  refine congrArg _ (List.find?_congr fun p mem => ?_)
  rw [grown.diagram.nodes.var_eq (valid.marks p mem).has]

theorem Valid.valuation_grows (valid : reg.Valid) (grown : reg.Grows reg') (ops : Operators)
    (m : Assignment) : reg'.valuation ops m = reg.valuation ops m := by
  funext x
  rw [valuation, valuation, valid.atomOf_grows grown]

def holdsIn (reg : Registry) (ops : Operators) (m : Assignment) (r : Region) : Bool :=
  reg.diagram.eval (reg.valuation ops m) r.ref

theorem Valid.holdsIn_grows (valid : reg.Valid) (grown : reg.Grows reg') {r : Region}
    (has : reg.diagram.Has r.ref) (ops : Operators) (m : Assignment) :
    reg'.holdsIn ops m r = reg.holdsIn ops m r := by
  rw [holdsIn, holdsIn, valid.valuation_grows grown,
    grown.diagram.nodes.eval_valid valid.diagram has]

/-! ### New predicates -/

theorem empty_valid (made : Registry.empty = .ok reg) : reg.Valid := by
  obtain ⟨d, start, made⟩ := Outcome.exists_of_bind made
  cases made
  obtain ⟨valid, nodes, vars⟩ := Diagram.ofBits_valid start
  exact ⟨valid, by simp [vars], by simp, by simp, by simp⟩

theorem exists_empty : ∃ d, Registry.empty = .ok ⟨d, []⟩ := by
  obtain ⟨d, made⟩ := Diagram.ofBits_ok (show 16 ≤ 31 by decide)
  refine ⟨d, ?_⟩
  rw [Registry.empty, made]
  rfl

structure Adds (reg reg' : Registry) : Prop where
  valid : reg'.Valid
  predicates : reg.predicates <+: reg'.predicates
  diagram : reg'.diagram.Extends reg.diagram

theorem Grows.adds (grown : reg.Grows reg') (valid : reg.Valid) : reg.Adds reg' :=
  ⟨valid.grows grown, grown.predicates.symm ▸ List.prefix_refl _, grown.diagram.nodes⟩

/-- Only the node of the new variable is made. -/
theorem fresh_ensures (valid : d.Valid) (vars : d.vars ≤ d.nodes.size) :
    Ensures Region.fresh d (fun violation => violation = .nodesExhausted ∧ d.Full) fun r e =>
      (e.Valid ∧ e.Extends d ∧ e.vars ≤ e.nodes.size ∧ e.Has r.ref ∧
        ∀ v, e.eval v r.ref = v (d.vars + 1)) ∧ d.Builds (Cofactor fun v => v (d.vars + 1)) e := by
  have room := valid.size_le
  unfold Region.fresh
  rw [Checked.ensures_bind]
  refine (Diagram.newVar_ensures d).imp ?_ fun _ full => by omega
  rintro x d₁ ⟨rfl, rfl⟩
  have valid₁ := valid.withVars (Nat.le_succ d.vars)
  have small : d.vars + 1 < Diagram.bottomLevel := by
    unfold Diagram.bottomLevel
    omega
  rw [Checked.ensures_bind]
  refine (Diagram.mkVar_ensures valid₁ (Nat.succ_ne_zero _) (Nat.le_refl _) small).mono ?_
  rintro r e ⟨⟨grown, has, eval⟩, builds⟩
  have extended : e.Extends d := grown.nodes
  have larger := Diagram.size_lt_of_fresh valid extended (Nat.lt_succ_self _) has eval
  refine ⟨⟨grown.valid, extended, ?_, has, eval⟩, grown.valid, extended, builds.needed⟩
  rw [grown.vars]
  exact Nat.le_trans (Nat.succ_le_succ vars) larger

theorem Valid.push (valid : reg.Valid) {marker : Region}
    (diagram : e.Valid ∧ e.vars ≤ e.nodes.size) (grown : e.Extends reg.diagram)
    (has : e.Has marker.ref) (eval : ∀ v, e.eval v marker.ref = v (reg.diagram.vars + 1))
    (atom : Formula) :
    Valid ⟨e, reg.predicates ++ [⟨reg.predicates.length, marker, atom⟩]⟩ := by
  have own : e.var marker.ref = reg.diagram.vars + 1 := diagram.1.ordered.var_of_eval has eval
  have old (p : Predicate) (mem : p ∈ reg.predicates) :
      e.var p.marker.ref = reg.diagram.var p.marker.ref ∧ e.var p.marker.ref ≤ reg.diagram.vars := by
    have same := grown.var_eq (valid.marks p mem).has
    refine ⟨same, same.trans_le ?_⟩
    exact valid.diagram.var_ref_le p.marker.ref
  refine ⟨diagram.1, diagram.2, ?_, ?_, ?_⟩
  · intro i p here
    rw [List.getElem?_append] at here
    split at here
    · exact valid.numbered i p here
    · rename_i later
      cases place : i - reg.predicates.length with
      | zero =>
        rw [place] at here
        cases here
        exact Nat.le_antisymm (Nat.le_of_not_lt later) (Nat.le_of_sub_eq_zero place)
      | succ k =>
        rw [place] at here
        cases here
  · intro p mem
    rcases List.mem_append.mp mem with mem | mem
    · exact (valid.marks p mem).grows valid.diagram grown
    · obtain rfl := List.mem_singleton.mp mem
      exact ⟨has, fun v => (eval v).trans (congrArg v own.symm)⟩
  · intro p memP q memQ var
    simp only at var
    rcases List.mem_append.mp memP with memP | memP
    · rcases List.mem_append.mp memQ with memQ | memQ
      · rw [(old p memP).1, (old q memQ).1] at var
        exact valid.separate p memP q memQ var
      · obtain rfl := List.mem_singleton.mp memQ
        have := (old p memP).2
        simp only at var
        omega
    · obtain rfl := List.mem_singleton.mp memP
      rcases List.mem_append.mp memQ with memQ | memQ
      · have := (old q memQ).2
        simp only at var
        omega
      · exact (List.mem_singleton.mp memQ).symm

/-- A predicate that is not known brings the node of its region variable. -/
theorem predicate_ensures (valid : reg.Valid) (atom : Formula) :
    Ensures (Registry.predicate atom) reg
      (fun violation => violation = .nodesExhausted ∧ reg.diagram.Full) fun p reg' =>
      (reg.Adds reg' ∧ p ∈ reg'.predicates ∧ p.atom = atom ∧
        ∀ q ∈ reg'.predicates, q ∈ reg.predicates ∨ q = p ∧ reg.ofAtom? atom = none) ∧
      reg.diagram.Builds (Cofactor fun v => v (reg'.diagram.var p.marker.ref)) reg'.diagram := by
  unfold predicate
  rw [Checked.ensures_bind, Checked.ensures_get]
  cases known : reg.ofAtom? atom with
  | some p =>
    have found := List.find?_some known
    exact ⟨⟨⟨valid, List.prefix_refl _, .refl _⟩, List.mem_of_find?_eq_some known,
      of_decide_eq_true found, fun _ => .inl⟩, .refl valid.diagram⟩
  | none =>
    simp only
    rw [Checked.ensures_bind, Registry.regions, Checked.ensures_zoom]
    refine (fresh_ensures valid.diagram valid.vars_le).mono
      fun marker e ⟨⟨validE, grown, vars, has, eval⟩, builds⟩ => ?_
    rw [Checked.ensures_bind, Checked.ensures_get, Checked.ensures_bind, Checked.ensures_modify]
    refine ⟨⟨⟨?_, List.prefix_append _ _, grown⟩,
      List.mem_append_right _ (List.mem_singleton_self _), rfl, fun q mem => ?_⟩, ?_⟩
    · exact valid.push ⟨validE, vars⟩ grown has eval atom
    · exact (List.mem_append.mp mem).imp_right fun new => ⟨List.mem_singleton.mp new, trivial⟩
    · rwa [validE.ordered.var_of_eval has eval]

theorem predicate_appends {atom : Formula} (new : reg.ofAtom? atom = none) :
    Ensures (Registry.predicate atom) reg (fun _ => True) fun p reg' =>
      reg'.predicates = reg.predicates ++ [p] ∧ p.id = reg.predicates.length := by
  unfold predicate
  rw [Checked.ensures_bind, Checked.ensures_get]
  simp only [new]
  rw [Checked.ensures_bind, Registry.regions, Checked.ensures_zoom]
  apply Checked.ensures_of_forall
  · exact fun _ _ _ => ⟨rfl, rfl⟩
  · exact fun _ _ => trivial

/-- There is a predicate for every atom as long as there are numbers for nodes. -/
theorem Valid.exists_predicate (valid : reg.Valid) (room : ¬ reg.diagram.Full) (atom : Formula) :
    ∃ p reg', Registry.predicate atom reg = .ok (p, reg') ∧ reg.Adds reg' ∧ p ∈ reg'.predicates ∧
      p.atom = atom ∧ reg'.diagram.nodes.size ≤ reg.diagram.nodes.size + 1 := by
  have ensured := (predicate_ensures valid atom).weaken fun _ full => room full.2
  obtain ⟨p, reg', run, ⟨adds, mem, same, -⟩, builds⟩ := ensured.exists_run
  exact ⟨p, reg', run, adds, mem, same, builds.size_le fun _ => Diagram.cofactor_var⟩

theorem empty_nodes (made : Registry.empty = .ok reg) : reg.diagram.nodes = #[] := by
  obtain ⟨d, start, same⟩ := Outcome.exists_of_bind made
  cases same
  exact (Diagram.ofBits_valid start).2.1

theorem empty_predicates (made : Registry.empty = .ok reg) : reg.predicates = [] := by
  obtain ⟨d, -, same⟩ := Outcome.exists_of_bind made
  cases same
  rfl

theorem exists_predicate (made : Registry.empty = .ok reg) (atom : Formula) :
    ∃ p reg', Registry.predicate atom reg = .ok (p, reg') ∧ reg.Adds reg' ∧
      reg'.predicates = [p] ∧ p.id = 0 ∧ p.atom = atom ∧ reg'.diagram.nodes.size ≤ 1 := by
  have none := empty_predicates made
  have room : ¬ reg.diagram.Full := by simp [Diagram.Full, empty_nodes made]
  obtain ⟨p, reg', run, adds, -, same, few⟩ := (empty_valid made).exists_predicate room atom
  rw [empty_nodes made, Array.size_empty] at few
  obtain ⟨appended, id⟩ := (predicate_appends (by simp [ofAtom?, none])).of_ok run
  rw [none] at appended id
  exact ⟨p, reg', run, adds, appended, id, same, few⟩

theorem predicate_first (made : Registry.empty = .ok reg) (atom : Formula) :
    Ensures (Registry.predicate atom) reg (fun _ => True) fun p _ => p.marker = ⟨.node 2⟩ := by
  unfold predicate
  rw [Checked.ensures_bind, Checked.ensures_get]
  simp only [ofAtom?, empty_predicates made, List.find?_nil]
  rw [Checked.ensures_bind, Registry.regions, Checked.ensures_zoom, Region.fresh, Checked.ensures_bind]
  refine (Diagram.newVar_ensures _).imp ?_ fun _ _ => trivial
  rintro x e ⟨rfl, rfl⟩
  rw [Checked.ensures_bind]
  refine (Diagram.mkVar_first _ (by exact empty_nodes made)).mono ?_
  rintro r e rfl
  exact rfl

theorem exists_variable : ∃ (d : Diagram) (r : Region), d.Valid ∧ r.IsVariable d ∧ d.nodes.size ≤ 1 := by
  obtain ⟨d, empty⟩ := exists_empty
  obtain ⟨p, reg, -, adds, single, -, -, few⟩ := exists_predicate empty (.bool true)
  have mem : p ∈ reg.predicates := by simp [single]
  exact ⟨reg.diagram, p.marker, adds.valid.diagram, (adds.valid.marks p mem).isVariable, few⟩

theorem exists_two_predicates (made : Registry.empty = .ok reg) (f g : Formula) (differ : f ≠ g) :
    ∃ p q reg₁ reg₂, Registry.predicate f reg = .ok (p, reg₁) ∧
      Registry.predicate g reg₁ = .ok (q, reg₂) ∧ reg₂.Valid ∧ reg₂.predicates = [p, q] ∧
      p.id = 0 ∧ q.id = 1 ∧ p.atom = f ∧ q.atom = g ∧ reg₂.diagram.nodes.size ≤ 2 := by
  obtain ⟨p, reg₁, run₁, first, single, idP, atomP, few₁⟩ := exists_predicate made f
  have room₁ : ¬ reg₁.diagram.Full := by
    unfold Diagram.Full
    omega
  obtain ⟨q, reg₂, run₂, second, -, atomQ, few₂⟩ := first.valid.exists_predicate room₁ g
  obtain ⟨appended, idQ⟩ :=
    (predicate_appends (by simp [ofAtom?, single, atomP, differ])).of_ok run₂
  rw [single] at appended idQ
  exact ⟨p, q, reg₁, reg₂, run₁, run₂, second.valid, appended, idP, idQ, atomP, atomQ, by omega⟩

/-- Two predicates and a region that joins them. -/
theorem exists_joined {op : Region → Region → DiagramM Region} {joins : Bool → Bool → Bool}
    (ensures : ∀ {d : Diagram} {a b : Region}, d.Valid → d.Has a.ref → d.Has b.ref →
      Checked.Ensures (op a b) d
        (d.Exhausts (Cofactor fun v => joins (d.eval v a.ref) (d.eval v b.ref))) fun r e =>
          d.Gives e r.ref (fun v => joins (d.eval v a.ref) (d.eval v b.ref)) ∧
            d.Builds (Cofactor fun v => joins (d.eval v a.ref) (d.eval v b.ref)) e)
    (f g : Formula) (apart : f ≠ g) : ∃ (reg : Registry) (p q : Predicate) (r : Region), reg.Valid ∧
    p ∈ reg.predicates ∧ q ∈ reg.predicates ∧ p ≠ q ∧ p.atom = f ∧ q.atom = g ∧
    reg.diagram.Has r.ref ∧ (∀ v, reg.diagram.eval v r.ref =
      joins (v (reg.diagram.var p.marker.ref)) (v (reg.diagram.var q.marker.ref))) ∧
    reg.diagram.vars ≤ 2 := by
  obtain ⟨d, empty⟩ := exists_empty
  obtain ⟨p, q, -, reg, -, -, valid, both, idP, idQ, atomP, atomQ, few⟩ :=
    exists_two_predicates empty f g apart
  have memP : p ∈ reg.predicates := by simp [both]
  have memQ : q ∈ reg.predicates := by simp [both]
  have differ : p ≠ q := by
    rintro rfl
    cases idP.symm.trans idQ
  have marksP := valid.marks p memP
  have marksQ := valid.marks q memQ
  have vars : reg.diagram.vars ≤ 2 := Nat.le_trans valid.vars_le few
  have only (s : Ref) := valid.diagram.onlyOn (Nat.le_refl _) s
  have room (v : Violation) : ¬ reg.diagram.Exhausts _ v :=
    valid.diagram.not_exhausts (Nat.le_trans vars (by decide)) fun k of => OnlyOn.cofactor
      (fun v w same => congrArg₂ joins (only p.marker.ref v w same) (only q.marker.ref v w same)) of
  obtain ⟨r, e, -, gives, -⟩ :=
    ((ensures valid.diagram marksP.has marksQ.has).weaken room).exists_run
  have grown : reg.Grows ⟨e, reg.predicates⟩ := ⟨rfl, gives.grows⟩
  refine ⟨⟨e, reg.predicates⟩, p, q, r, valid.grows grown, memP, memQ, differ, atomP, atomQ,
    gives.has, ?_, Nat.le_trans (Nat.le_of_eq gives.grows.vars) vars⟩
  intro v
  rw [gives.eval, marksP.eval, marksQ.eval, gives.grows.nodes.var_eq marksP.has,
    gives.grows.nodes.var_eq marksQ.has]

theorem exists_both (f g : Formula) (apart : f ≠ g) : ∃ (reg : Registry) (p q : Predicate) (r : Region),
    reg.Valid ∧ p ∈ reg.predicates ∧ q ∈ reg.predicates ∧ p ≠ q ∧ p.atom = f ∧ q.atom = g ∧
    reg.diagram.Has r.ref ∧ (∀ v, reg.diagram.eval v r.ref =
      (v (reg.diagram.var p.marker.ref) && v (reg.diagram.var q.marker.ref))) ∧
    reg.diagram.vars ≤ 2 :=
  exists_joined (fun valid hasA hasB =>
    Region.and_ensures (.refl valid) hasA hasB (fun _ => rfl) fun _ => id) f g apart

end Registry

end ProgramAnalysis
