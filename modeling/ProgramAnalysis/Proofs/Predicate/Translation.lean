import ProgramAnalysis.Proofs.Predicate.Concrete
import ProgramAnalysis.Proofs.Region

/-! Formulas as regions, and back. The region of a formula has the value of the formula when every atom
and every propositional variable has the value of the region variable of its predicate. An atom has only
one predicate, so a region is the region of its formula. All nodes that a translation makes are those of
the regions on the way, so it can only run out of numbers for nodes when these are too many. -/
namespace ProgramAnalysis

open Checked (Ensures)
open Diagram (Cofactor)

variable {ops : Operators} {p q : Predicate} {reg reg' : Registry} {r : Region} {f g : Formula}
  {v w : Valuation}

namespace Registry

/-- No two predicates have the same atom. -/
structure Canonical (reg : Registry) : Prop where
  valid : reg.Valid
  atoms : ∀ p ∈ reg.predicates, ∀ q ∈ reg.predicates, p.atom = q.atom → p = q

/-- The predicate of a leaf: propositional variables name predicates. -/
def ofLeaf? (reg : Registry) : Formula → Option Predicate
  | .prop x => reg.ofName? x
  | g => reg.ofAtom? g

/-- The values of the leaves of formulas when region variables have the given ones. -/
def leaf (reg : Registry) (v : Valuation) (g : Formula) : Bool :=
  (reg.ofLeaf? g).elim false fun p => v (reg.diagram.var p.marker.ref)

theorem Canonical.ofAtom?_atom (canonical : reg.Canonical) (mem : p ∈ reg.predicates) :
    reg.ofAtom? p.atom = some p := by
  unfold ofAtom?
  cases found : reg.predicates.find? (·.atom = p.atom) with
  | none =>
    have absent := List.find?_eq_none.mp found p mem
    simp at absent
  | some q =>
    have same : q.atom = p.atom := by simpa using List.find?_some found
    rw [canonical.atoms q (List.mem_of_find?_eq_some found) p mem same]

theorem mem_of_ofAtom? (found : reg.ofAtom? g = some p) : p ∈ reg.predicates ∧ p.atom = g :=
  ⟨List.mem_of_find?_eq_some found, by simpa using List.find?_some found⟩

theorem mem_of_ofName? {x : String} (found : reg.ofName? x = some p) :
    p ∈ reg.predicates ∧ p.name = x :=
  ⟨List.mem_of_find?_eq_some found, by simpa using List.find?_some found⟩

theorem mem_of_ofLeaf? (found : reg.ofLeaf? g = some p) : p ∈ reg.predicates := by
  cases g with
  | prop x => exact (mem_of_ofName? found).1
  | _ => exact (mem_of_ofAtom? found).1

theorem Canonical.leaf_atom (canonical : reg.Canonical) (mem : p ∈ reg.predicates)
    (isAtom : p.atom.isAtom = true) : reg.leaf v p.atom = v (reg.diagram.var p.marker.ref) := by
  have found := canonical.ofAtom?_atom mem
  have same : reg.ofLeaf? p.atom = reg.ofAtom? p.atom := by
    cases atom : p.atom with
    | prop x => simp [atom, Formula.isAtom] at isAtom
    | _ => rfl
  simp [leaf, same, found]

/-! ### Growing registries -/

theorem Adds.trans {reg'' : Registry} (first : reg.Adds reg') (second : reg'.Adds reg'') :
    reg.Adds reg'' :=
  ⟨second.valid, first.predicates.trans second.predicates, second.diagram.trans first.diagram⟩

theorem Adds.find? (adds : reg.Adds reg') {test : Predicate → Bool}
    (found : reg.predicates.find? test = some p) : reg'.predicates.find? test = some p := by
  obtain ⟨more, whole⟩ := adds.predicates
  rw [← whole, List.find?_append, found]
  rfl

theorem Adds.ofLeaf? (adds : reg.Adds reg') (found : reg.ofLeaf? g = some p) :
    reg'.ofLeaf? g = some p := by
  cases g <;> exact adds.find? found

/-- Predicates that are known keep their region variables. -/
theorem Adds.var_eq (adds : reg.Adds reg') (valid : reg.Valid) (mem : p ∈ reg.predicates) :
    reg'.diagram.var p.marker.ref = reg.diagram.var p.marker.ref :=
  adds.diagram.var_eq (valid.marks p mem).has

theorem Adds.leaf_eq (adds : reg.Adds reg') (valid : reg.Valid) (known : reg.ofLeaf? g ≠ none) :
    reg'.leaf v g = reg.leaf v g := by
  obtain ⟨p, found⟩ := Option.ne_none_iff_exists'.mp known
  simp [leaf, found, adds.ofLeaf? found, adds.var_eq valid (mem_of_ofLeaf? found)]

theorem Canonical.grows (canonical : reg.Canonical) (grown : reg.Grows reg') : reg'.Canonical := by
  refine ⟨canonical.valid.grows grown, ?_⟩
  rw [grown.predicates]
  exact canonical.atoms

theorem Canonical.predicate (canonical : reg.Canonical) (atom : Formula) :
    Ensures (predicate atom) reg (fun violation => violation = .nodesExhausted ∧ reg.diagram.Full)
      fun p reg' => (reg'.Canonical ∧ reg.Adds reg' ∧ p ∈ reg'.predicates ∧ p.atom = atom ∧
        ∀ q ∈ reg'.predicates, q ∈ reg.predicates ∨ q = p) ∧
        reg.diagram.Builds (Cofactor fun v => v (reg'.diagram.var p.marker.ref)) reg'.diagram := by
  apply (predicate_ensures canonical.valid atom).mono
  rintro p reg' ⟨⟨adds, mem, same, origin⟩, builds⟩
  refine ⟨⟨⟨adds.valid, ?_⟩, adds, mem, same, fun q mem => (origin q mem).imp_right And.left⟩, builds⟩
  have fresh (q : Predicate) (old : q ∈ reg.predicates) (missing : reg.ofAtom? atom = none) :
      q.atom ≠ p.atom := by
    rw [same]
    simpa using List.find?_eq_none.mp missing q old
  intro q memQ q' memQ' atoms
  rcases origin q memQ with old | ⟨rfl, missing⟩
  · rcases origin q' memQ' with old' | ⟨rfl, missing⟩
    · exact canonical.atoms q old q' old' atoms
    · exact absurd atoms (fresh q old missing)
  · rcases origin q' memQ' with old' | ⟨rfl, -⟩
    · exact absurd atoms.symm (fresh q' old' missing)
    · rfl

/-! ### The region of a formula -/

/-- The region has the value of the formula, and all leaves of the formula are known. -/
structure Denotes (reg : Registry) (f : Formula) (r : Region) : Prop where
  has : reg.diagram.Has r.ref
  known : ∀ g ∈ f.leaves, reg.ofLeaf? g ≠ none
  eval : ∀ v, reg.diagram.eval v r.ref = f.value (reg.leaf v)

/-- Predicates are only added for atoms. -/
structure Reaches (reg reg' : Registry) : Prop where
  canonical : reg'.Canonical
  adds : reg.Adds reg'
  new : ∀ p ∈ reg'.predicates, p ∈ reg.predicates ∨ p.atom.isAtom = true

theorem Reaches.refl (canonical : reg.Canonical) : reg.Reaches reg :=
  ⟨canonical, ⟨canonical.valid, List.prefix_refl _, .refl _⟩, fun _ => .inl⟩

theorem Reaches.trans {reg'' : Registry} (first : reg.Reaches reg') (second : reg'.Reaches reg'') :
    reg.Reaches reg'' := by
  refine ⟨second.canonical, first.adds.trans second.adds, fun p mem => ?_⟩
  rcases second.new p mem with old | isAtom
  · exact first.new p old
  · exact .inr isAtom

theorem Reaches.numeric (reaches : reg.Reaches reg')
    (plain : ∀ p ∈ reg.predicates, p.atom.Within .numeric) :
    ∀ p ∈ reg'.predicates, p.atom.Within .numeric := by
  intro p mem
  rcases reaches.new p mem with old | isAtom
  · exact plain p old
  · exact Formula.within_numeric_of_isAtom isAtom

theorem Denotes.later (denotes : reg.Denotes f r) (valid : reg.Valid) (reaches : reg.Reaches reg') :
    reg'.Denotes f r := by
  have adds := reaches.adds
  refine ⟨adds.diagram.has denotes.has, fun g mem => ?_, fun v => ?_⟩
  · obtain ⟨p, found⟩ := Option.ne_none_iff_exists'.mp (denotes.known g mem)
    simp [adds.ofLeaf? found]
  · rw [adds.diagram.eval_valid valid.diagram denotes.has, denotes.eval]
    exact Formula.value_congr f fun g mem => (adds.leaf_eq valid (denotes.known g mem)).symm

/-- The two cases of an equivalence. -/
def sides : Formula → List Formula
  | .iff f g => [.nary .and [f, g], .nary .and [.not f, .not g]]
  | _ => []

/-- The formulas whose regions are made on the way to the region of a formula. -/
def stages (f : Formula) : List Formula := f.stages.flatMap fun g => g :: sides g

theorem mem_stages {f : Formula} : ∀ g ∈ f.stages, ∀ h ∈ g :: sides g, h ∈ stages f :=
  fun g here _ mem => List.mem_flatMap.mpr ⟨g, here, mem⟩

/-- The functions of the nodes for formulas whose leaves are known. -/
def Needs (reg : Registry) (fs : List Formula) (k : Valuation → Bool) : Prop :=
  ∃ f ∈ fs, (∀ g ∈ f.leaves, reg.ofLeaf? g ≠ none) ∧ Cofactor (fun v => f.value (reg.leaf v)) k

/-- With more predicates, the nodes that formulas need are too many. -/
def Exhausts (reg : Registry) (fs : List Formula) (violation : Violation) : Prop :=
  ∃ reg', reg.Reaches reg' ∧ reg.diagram.Exhausts (reg'.Needs fs) violation

/-- A registry on the way: all new predicates and nodes are for the formulas. -/
structure Makes (reg : Registry) (fs : List Formula) (reg' : Registry) : Prop where
  reaches : reg.Reaches reg'
  origin : ∀ p ∈ reg'.predicates, p ∈ reg.predicates ∨ p.atom ∈ fs
  builds : reg.diagram.Builds (reg'.Needs fs) reg'.diagram

/-- Too many nodes, and propositional variables that name no predicate. -/
def Breaks (reg : Registry) (fs leaves : List Formula) (violation : Violation) : Prop :=
  reg.Exhausts fs violation ∨
    ∃ x, .prop x ∈ leaves ∧ reg.ofName? x = none ∧ violation = .notPredicateVariable x

theorem Breaks.mono {fs leaves leaves' : List Formula} {violation : Violation}
    (breaks : reg.Breaks fs leaves violation) (sub : ∀ g ∈ leaves, g ∈ leaves') :
    reg.Breaks fs leaves' violation := by
  rcases breaks with exhausts | ⟨x, mem, missing, same⟩
  · exact .inl exhausts
  · exact .inr ⟨x, sub _ mem, missing, same⟩

theorem Needs.later {fs : List Formula} {k : Valuation → Bool} (needs : reg.Needs fs k)
    (valid : reg.Valid) (adds : reg.Adds reg') : reg'.Needs fs k := by
  obtain ⟨f, mem, known, of⟩ := needs
  have same : (fun v => f.value (reg.leaf v)) = fun v => f.value (reg'.leaf v) := funext fun v =>
    Formula.value_congr f fun g leaf => (adds.leaf_eq valid (known g leaf)).symm
  refine ⟨f, mem, fun g leaf => ?_, same ▸ of⟩
  obtain ⟨p, found⟩ := Option.ne_none_iff_exists'.mp (known g leaf)
  simp [adds.ofLeaf? found]

theorem Makes.start (canonical : reg.Canonical) (fs : List Formula) : reg.Makes fs reg :=
  ⟨.refl canonical, fun _ => .inl, .refl canonical.valid.diagram⟩

variable {reg₀ : Registry} {fs : List Formula}

theorem Makes.exhausts {violation : Violation} (made : reg₀.Makes fs reg)
    (full : violation = .nodesExhausted ∧ reg.diagram.Full) : reg₀.Exhausts fs violation :=
  ⟨reg, made.reaches, made.builds.exhausts full⟩

/-- An operation on regions that gives the region of one of the formulas. -/
theorem Makes.regions {act : DiagramM Region} (made : reg₀.Makes fs reg)
    (known : ∀ g ∈ f.leaves, reg.ofLeaf? g ≠ none)
    (gives : Ensures act reg.diagram (reg₀.diagram.Exhausts (reg.Needs fs)) fun r e =>
      (reg.diagram.Gives e r.ref fun v => f.value (reg.leaf v)) ∧ reg₀.diagram.Builds (reg.Needs fs) e) :
    Ensures (regions act) reg (reg₀.Exhausts fs) fun r reg' =>
      (reg.Reaches reg' ∧ reg'.Denotes f r) ∧ reg₀.Makes fs reg' := by
  have canonical := made.reaches.canonical
  rw [Registry.regions, Checked.ensures_zoom]
  apply gives.imp _ fun _ exhausts => ⟨reg, made.reaches, exhausts⟩
  rintro r e ⟨given, builds⟩
  have grown : reg.Grows ⟨e, reg.predicates⟩ := ⟨rfl, given.grows⟩
  have adds := grown.adds canonical.valid
  have reaches : reg.Reaches ⟨e, reg.predicates⟩ := ⟨canonical.grows grown, adds, fun _ => .inl⟩
  refine ⟨⟨reaches, given.has, fun g mem => ?_, fun v => ?_⟩, made.reaches.trans reaches, made.origin,
    builds.mono fun _ needs => needs.later canonical.valid adds⟩
  · obtain ⟨p, found⟩ := Option.ne_none_iff_exists'.mp (known g mem)
    simp [adds.ofLeaf? found]
  · rw [given.eval]
    exact Formula.value_congr f fun g mem => (adds.leaf_eq canonical.valid (known g mem)).symm

theorem Denotes.connect {c : Connective} {done : List Formula} {a b : Region}
    (made : reg₀.Makes fs reg) (mem : .nary c (done ++ [f]) ∈ fs)
    (soFar : reg.Denotes (.nary c done) a) (next : reg.Denotes f b) :
    Ensures (regions (match c with
      | .and => a.and b
      | .or => a.or b)) reg (reg₀.Exhausts fs) fun r reg' =>
        (reg.Reaches reg' ∧ reg'.Denotes (.nary c (done ++ [f])) r) ∧ reg₀.Makes fs reg' := by
  have value (v : Valuation) : c.combine (reg.diagram.eval v a.ref) (reg.diagram.eval v b.ref) =
      (Formula.nary c (done ++ [f])).value (reg.leaf v) := by
    rw [soFar.eval, next.eval, Formula.value, Formula.value, Formula.valueNary_append]
    cases c <;> simp [Formula.valueNary, Connective.combine, Connective.unit]
  have known : ∀ g ∈ (Formula.nary c (done ++ [f])).leaves, reg.ofLeaf? g ≠ none := by
    intro g leaf
    obtain ⟨h, here, inside⟩ := Formula.mem_leavesAll.mp leaf
    rcases List.mem_append.mp here with old | new
    · exact soFar.known g (Formula.mem_leavesAll.mpr ⟨h, old, inside⟩)
    · exact next.known g (List.mem_singleton.mp new ▸ inside)
  apply made.regions known
  cases c with
  | and => exact Region.and_ensures made.builds soFar.has next.has value fun k of => ⟨_, mem, known, of⟩
  | or => exact Region.or_ensures made.builds soFar.has next.has value fun k of => ⟨_, mem, known, of⟩

theorem Denotes.not (denotes : reg.Denotes f r) (valid : reg.Valid) :
    reg.Denotes (.not f) r.not := by
  refine ⟨Region.has_not denotes.has, denotes.known, fun v => ?_⟩
  rw [Region.eval_not valid.diagram denotes.has, denotes.eval, Formula.value]

theorem Denotes.and {a b : Region} (made : reg₀.Makes fs reg) (mem : .nary .and [f, g] ∈ fs)
    (first : reg.Denotes f a) (second : reg.Denotes g b) :
    Ensures (regions (a.and b)) reg (reg₀.Exhausts fs) fun r reg' =>
      (reg.Reaches reg' ∧ reg'.Denotes (.nary .and [f, g]) r) ∧ reg₀.Makes fs reg' := by
  have one : reg.Denotes (.nary .and [f]) a :=
    ⟨first.has, by simpa [Formula.leaves, Formula.leavesAll] using first.known, fun v => by
      simp [first.eval, Formula.value, Formula.valueNary, Connective.combine, Connective.unit]⟩
  exact one.connect made mem second

theorem Denotes.either {both neither : Region} (made : reg₀.Makes fs reg) (mem : .iff f g ∈ fs)
    (ofBoth : reg.Denotes (.nary .and [f, g]) both)
    (ofNeither : reg.Denotes (.nary .and [.not f, .not g]) neither) :
    Ensures (regions (both.or neither)) reg (reg₀.Exhausts fs) fun r reg' =>
      (reg.Reaches reg' ∧ reg'.Denotes (.iff f g) r) ∧ reg₀.Makes fs reg' := by
  have value (v : Valuation) : (reg.diagram.eval v both.ref || reg.diagram.eval v neither.ref) =
      (Formula.iff f g).value (reg.leaf v) := by
    rw [ofBoth.eval, ofNeither.eval]
    simp only [Formula.value, Formula.valueNary, Connective.combine, Connective.unit]
    cases f.value (reg.leaf v) <;> cases g.value (reg.leaf v) <;> rfl
  have known : ∀ h ∈ (Formula.iff f g).leaves, reg.ofLeaf? h ≠ none := by
    intro h leaf
    apply ofBoth.known h
    simpa [Formula.leaves, Formula.leavesAll] using leaf
  apply made.regions known
  exact Region.or_ensures made.builds ofBoth.has ofNeither.has value fun k of => ⟨_, mem, known, of⟩

/-- Two formulas are equivalent if both hold or neither does. -/
theorem Denotes.iff {a b : Region} (made : reg₀.Makes fs reg)
    (mem : ∀ h ∈ Formula.iff f g :: sides (.iff f g), h ∈ fs) (ofA : reg.Denotes f a)
    (ofB : reg.Denotes g b) :
    Ensures (do
      let both ← regions (a.and b)
      let neither ← regions (a.not.and b.not)
      regions (both.or neither)) reg (reg₀.Exhausts fs) fun r reg' =>
        (reg.Reaches reg' ∧ reg'.Denotes (.iff f g) r) ∧ reg₀.Makes fs reg' := by
  simp only [sides, List.forall_mem_cons] at mem
  obtain ⟨memIff, memBoth, memNeither, -⟩ := mem
  have valid := made.reaches.canonical.valid
  rw [Checked.ensures_bind]
  apply (ofA.and made memBoth ofB).mono
  rintro both reg₁ ⟨⟨first, ofBoth⟩, made₁⟩
  have notA := (ofA.later valid first).not first.canonical.valid
  have notB := (ofB.later valid first).not first.canonical.valid
  rw [Checked.ensures_bind]
  apply (notA.and made₁ memNeither notB).mono
  rintro neither reg₂ ⟨⟨second, ofNeither⟩, made₂⟩
  apply ((ofBoth.later first.canonical.valid second).either made₂ memIff ofNeither).mono
  rintro r reg₃ ⟨⟨third, denotes⟩, made₃⟩
  exact ⟨⟨first.trans (second.trans third), denotes⟩, made₃⟩

theorem denotes_bool (reg : Registry) (b : Bool) :
    reg.Denotes (.bool b) (if b then .top else .bottom) := by
  cases b with
  | false => exact ⟨reg.diagram.has_zero, by simp [Formula.leaves], fun v => Diagram.eval_zero _ v⟩
  | true => exact ⟨reg.diagram.has_one, by simp [Formula.leaves], fun v => Diagram.eval_one _ v⟩

/-- Atoms and propositional variables are their own leaves. -/
theorem Valid.denotes_leaf (valid : reg.Valid) (found : reg.ofLeaf? f = some p)
    (alone : f.leaves = [f]) (value : ∀ leaf, f.value leaf = leaf f) :
    reg.Denotes f p.marker := by
  have marks := valid.marks p (mem_of_ofLeaf? found)
  refine ⟨marks.has, by simp [alone, found], fun v => ?_⟩
  rw [marks.eval, value, leaf, found, Option.elim_some]

/-- The predicate of an atom brings the node of the atom. -/
theorem Makes.atom (made : reg₀.Makes fs reg) {rel : Relation} {a b : Term} (mem : .atom rel a b ∈ fs) :
    Ensures (predicate (.atom rel a b)) reg (reg₀.Exhausts fs) fun p reg' =>
      (reg.Reaches reg' ∧ reg'.Denotes (.atom rel a b) p.marker) ∧ reg₀.Makes fs reg' := by
  apply (made.reaches.canonical.predicate (.atom rel a b)).imp _ fun _ full => made.exhausts full
  rintro p reg' ⟨⟨canonical, adds, memP, same, origin⟩, builds⟩
  have found := canonical.ofAtom?_atom memP
  rw [same] at found
  have denotes : reg'.Denotes (.atom rel a b) p.marker :=
    canonical.valid.denotes_leaf found rfl fun _ => rfl
  have reaches : reg.Reaches reg' := by
    refine ⟨canonical, adds, fun q memQ => (origin q memQ).imp_right ?_⟩
    rintro rfl
    rw [same]
    rfl
  have before := made.builds.mono fun k (needs : reg.Needs fs k) =>
    needs.later made.reaches.canonical.valid adds
  refine ⟨⟨reaches, denotes⟩, made.reaches.trans reaches, fun q memQ => ?_,
    before.trans (builds.mono fun k of => ?_)⟩
  · rcases origin q memQ with old | rfl
    · exact made.origin q old
    · exact .inr (same ▸ mem)
  have marked (v : Valuation) : v (reg'.diagram.var p.marker.ref) =
      (Formula.atom rel a b).value (reg'.leaf v) := by
    rw [← denotes.eval, (canonical.valid.marks p memP).eval]
  refine ⟨_, mem, denotes.known, ?_⟩
  simpa only [← marked] using of

mutual

theorem ofFormula_denotes {reg : Registry} (made : reg₀.Makes fs reg) (f : Formula)
    (sub : ∀ g ∈ f.stages, ∀ h ∈ g :: sides g, h ∈ fs) :
    Ensures (ofFormula f) reg (reg₀.Breaks fs f.leaves) fun r reg' =>
      (reg.Reaches reg' ∧ reg'.Denotes f r) ∧ reg₀.Makes fs reg' := by
  have canonical := made.reaches.canonical
  cases f with
  | bool b => exact ⟨⟨.refl canonical, reg.denotes_bool b⟩, made⟩
  | prop x =>
    rw [ofFormula, Checked.ensures_bind, Checked.ensures_get]
    cases found : reg.ofName? x with
    | none =>
      refine .inr ⟨x, List.mem_singleton_self _, ?_, rfl⟩
      cases before : reg₀.ofName? x with
      | none => rfl
      | some p =>
        cases found.symm.trans (made.reaches.adds.find? before : reg.ofName? x = some p)
    | some p =>
      exact ⟨⟨.refl canonical, canonical.valid.denotes_leaf found rfl fun _ => rfl⟩, made⟩
  | atom rel a b =>
    rw [ofFormula, Checked.ensures_bind]
    exact (made.atom (sub _ List.mem_cons_self _ List.mem_cons_self)).weaken fun _ => .inl
  | not f =>
    rw [ofFormula, Checked.ensures_bind]
    apply (ofFormula_denotes made f sub).mono
    rintro r reg' ⟨⟨reaches, denotes⟩, made'⟩
    exact ⟨⟨reaches, denotes.not reaches.canonical.valid⟩, made'⟩
  | nary c gs =>
    rw [ofFormula]
    have empty := reg.denotes_bool c.unit
    have start : reg.Denotes (.nary c []) (if c.unit then .top else .bottom) :=
      ⟨empty.has, empty.known, empty.eval⟩
    exact ofArgs_denotes made start gs sub
  | iff a b =>
    rw [Formula.stages, List.forall_mem_append, List.forall_mem_append] at sub
    obtain ⟨⟨subA, subB⟩, subIff⟩ := sub
    rw [ofFormula, Checked.ensures_bind]
    apply (ofFormula_denotes made a subA).imp
    · rintro r₁ reg₁ ⟨⟨first, ofA⟩, made₁⟩
      rw [Checked.ensures_bind]
      apply (ofFormula_denotes made₁ b subB).imp
      · rintro r₂ reg₂ ⟨⟨second, ofB⟩, made₂⟩
        have ofA₂ := ofA.later first.canonical.valid second
        apply (ofA₂.iff made₂ (subIff _ List.mem_cons_self) ofB).imp _ fun _ => .inl
        rintro r reg₃ ⟨⟨third, denotes⟩, made₃⟩
        exact ⟨⟨first.trans (second.trans third), denotes⟩, made₃⟩
      · intro violation breaks
        exact breaks.mono fun g mem => List.mem_append_right _ mem
    · intro violation breaks
      exact breaks.mono fun g mem => List.mem_append_left _ mem

theorem ofArgs_denotes {reg : Registry} {c : Connective} {done : List Formula} {acc : Region}
    (made : reg₀.Makes fs reg) (soFar : reg.Denotes (.nary c done) acc) (gs : List Formula)
    (sub : ∀ g ∈ Formula.stagesAll c done gs, ∀ h ∈ g :: sides g, h ∈ fs) :
    Ensures (ofArgs c gs acc) reg (reg₀.Breaks fs (Formula.leavesAll gs)) fun r reg' =>
      (reg.Reaches reg' ∧ reg'.Denotes (.nary c (done ++ gs)) r) ∧ reg₀.Makes fs reg' := by
  cases gs with
  | nil =>
    rw [List.append_nil]
    exact ⟨⟨.refl made.reaches.canonical, soFar⟩, made⟩
  | cons g gs =>
    rw [Formula.stagesAll, List.forall_mem_append, List.forall_mem_cons] at sub
    obtain ⟨subG, joined, rest⟩ := sub
    have valid := made.reaches.canonical.valid
    rw [ofArgs, Checked.ensures_bind]
    apply (ofFormula_denotes made g subG).imp
    · rintro r reg₁ ⟨⟨first, denotes⟩, made₁⟩
      rw [Checked.ensures_bind]
      apply (Denotes.connect made₁ (joined _ List.mem_cons_self) (soFar.later valid first) denotes).imp
      · rintro acc' reg₂ ⟨⟨second, joined⟩, made₂⟩
        apply (ofArgs_denotes made₂ joined gs rest).imp
        · rintro r' reg₃ ⟨⟨third, all⟩, made₃⟩
          refine ⟨⟨first.trans (second.trans third), ?_⟩, made₃⟩
          rw [List.append_assoc] at all
          exact all
        · intro violation breaks
          exact breaks.mono fun g mem => List.mem_append_right _ mem
      · exact fun _ => .inl
    · intro violation breaks
      exact breaks.mono fun g mem => List.mem_append_left _ mem

end

/-! ### Histories -/

/-- Registries that come from calls, with the formulas that were kept while regions were translated. Others
may combine regions and make region variables of their own. -/
inductive History : Registry → Std.HashMap Ref Formula → Prop
  | start {reg : Registry} (made : Registry.empty = .ok reg) : History reg ∅
  | predicate {reg reg' : Registry} {kept : Std.HashMap Ref Formula} {p : Predicate} {atom : Formula}
      (before : History reg kept) (numeric : atom.Within .numeric)
      (run : Registry.predicate atom reg = .ok (p, reg')) : History reg' kept
  | ofFormula {reg reg' : Registry} {kept : Std.HashMap Ref Formula} {r : Region} {f : Formula}
      (before : History reg kept) (run : Registry.ofFormula f reg = .ok (r, reg')) : History reg' kept
  | toFormula {reg : Registry} {kept kept' : Std.HashMap Ref Formula} {r : Region} {f : Formula}
      (before : History reg kept) (has : reg.diagram.Has r.ref)
      (run : concrete reg.predicates reg.diagram r.ref kept = .ok (f, kept')) : History reg kept'
  | and {reg reg' : Registry} {kept : Std.HashMap Ref Formula} {a b r : Region}
      (before : History reg kept) (hasA : reg.diagram.Has a.ref) (hasB : reg.diagram.Has b.ref)
      (run : regions (a.and b) reg = .ok (r, reg')) : History reg' kept
  | or {reg reg' : Registry} {kept : Std.HashMap Ref Formula} {a b r : Region}
      (before : History reg kept) (hasA : reg.diagram.Has a.ref) (hasB : reg.diagram.Has b.ref)
      (run : regions (a.or b) reg = .ok (r, reg')) : History reg' kept
  | variable {reg reg' : Registry} {kept : Std.HashMap Ref Formula} {r : Region}
      (before : History reg kept) (run : regions Region.fresh reg = .ok (r, reg')) : History reg' kept

/-- What registries in a history have in common. -/
structure Sound (reg : Registry) (kept : Std.HashMap Ref Formula) : Prop where
  canonical : reg.Canonical
  numeric : ∀ p ∈ reg.predicates, p.atom.Within .numeric
  keeps : reg.Keeps kept

variable {kept : Std.HashMap Ref Formula}

/-- An operation on the diagram that adds nodes. -/
theorem Sound.regions {act : DiagramM Region} {bad : Violation → Prop} {good : Region → Diagram → Prop}
    (sound : reg.Sound kept) (does : Ensures act reg.diagram bad good)
    (grows : ∀ r e, good r e → e.Valid ∧ e.vars ≤ e.nodes.size ∧ e.Extends reg.diagram)
    (run : Registry.regions act reg = .ok (r, reg')) : reg'.Sound kept := by
  have valid := sound.canonical.valid
  have done : Ensures (Registry.regions act) reg bad fun _ reg' => reg'.Sound kept := by
    rw [Registry.regions, Checked.ensures_zoom]
    apply does.mono
    intro r e here
    obtain ⟨validE, vars, grown⟩ := grows r e here
    have later := valid.withDiagram validE vars grown
    have adds : reg.Adds ⟨e, reg.predicates⟩ := ⟨later, List.prefix_refl _, grown⟩
    exact ⟨⟨later, sound.canonical.atoms⟩, sound.numeric, sound.keeps.later adds valid⟩
  exact done.of_ok run

theorem Sound.operation {act : DiagramM Region} {bad : Violation → Prop} {value : Valuation → Bool}
    {S : (Valuation → Bool) → Prop} (sound : reg.Sound kept)
    (gives : Ensures act reg.diagram bad fun r e =>
      reg.diagram.Gives e r.ref value ∧ reg.diagram.Builds S e)
    (run : Registry.regions act reg = .ok (r, reg')) : reg'.Sound kept := by
  apply sound.regions gives _ run
  rintro r e ⟨given, -⟩
  have size := given.grows.nodes.size_le
  have enough := sound.canonical.valid.vars_le
  have vars := given.grows.vars
  exact ⟨given.grows.valid, by omega, given.grows.nodes⟩

theorem History.sound (history : History reg kept) : reg.Sound kept := by
  induction history with
  | start made =>
    have none := empty_predicates made
    exact ⟨⟨empty_valid made, by simp [none]⟩, by simp [none], keeps_empty _⟩
  | predicate before numeric run ih =>
    obtain ⟨⟨canonical', adds, -, atom, origin⟩, -⟩ := (ih.canonical.predicate _).of_ok run
    refine ⟨canonical', fun q mem => ?_, ih.keeps.later adds ih.canonical.valid⟩
    rcases origin q mem with old | rfl
    · exact ih.numeric q old
    · exact atom ▸ numeric
  | ofFormula before run ih =>
    obtain ⟨⟨reaches, -⟩, -⟩ :=
      (ofFormula_denotes (.start ih.canonical _) _ mem_stages).of_ok run
    exact ⟨reaches.canonical, reaches.numeric ih.numeric,
      ih.keeps.later reaches.adds ih.canonical.valid⟩
  | toFormula before has run ih =>
    have ordered := ih.canonical.valid.diagram.ordered
    exact ⟨ih.canonical, ih.numeric, (concrete_writes ordered has ih.keeps run).2⟩
  | and before hasA hasB run ih =>
    exact ih.operation (Region.and_ensures (.refl ih.canonical.valid.diagram) hasA hasB (fun _ => rfl)
      fun _ => id) run
  | or before hasA hasB run ih =>
    exact ih.operation (Region.or_ensures (.refl ih.canonical.valid.diagram) hasA hasB (fun _ => rfl)
      fun _ => id) run
  | «variable» before run ih =>
    exact ih.regions (fresh_ensures ih.canonical.valid.diagram ih.canonical.valid.vars_le)
      (fun r e ⟨⟨valid, grown, vars, _⟩, _⟩ => ⟨valid, vars, grown⟩) run

/-! ### There and back -/

/-- The region only tests variables of predicates. -/
def Over (reg : Registry) (r : Region) : Prop :=
  ∀ x, reg.diagram.Tests r.ref x → ∃ p ∈ reg.predicates, reg.diagram.var p.marker.ref = x

/-- The valuation gives every predicate the truth value of its atom for the given numbers. Atoms have no
propositional variables, so their values do not matter. -/
def ValuesAt (reg : Registry) (ops : Operators) (numbers : TermVar → Int) (v : Valuation) : Prop :=
  ∀ p ∈ reg.predicates, v (reg.diagram.var p.marker.ref) = p.atom.holds ops ⟨numbers, fun _ => false⟩

theorem Valid.valuesAt_valuation (valid : reg.Valid) (ops : Operators) (numbers : TermVar → Int) :
    reg.ValuesAt ops numbers (reg.valuation ops ⟨numbers, fun _ => false⟩) :=
  fun _ mem => valid.valuation_marker mem ops _

/-- The numbers, with the propositional variable of every predicate read as the valuation says. -/
def readAs (reg : Registry) (numbers : TermVar → Int) (v : Valuation) : Assignment :=
  ⟨numbers, fun x => reg.leaf v (.prop x)⟩

theorem holds_numeric (within : f.Within .numeric) (numbers : TermVar → Int)
    (truth truth' : String → Bool) :
    f.holds ops ⟨numbers, truth⟩ = f.holds ops ⟨numbers, truth'⟩ :=
  Formula.holds_congr f within (fun _ _ => rfl) fun _ none => none.elim

variable {numbers : TermVar → Int}

theorem Denotes.holds (denotes : reg.Denotes f r)
    (plain : ∀ p ∈ reg.predicates, p.atom.Within .numeric) (values : reg.ValuesAt ops numbers v) :
    reg.diagram.eval v r.ref = f.holds ops (reg.readAs numbers v) := by
  rw [denotes.eval, ← Formula.value_holds]
  apply Formula.value_congr f
  intro g mem
  rcases Formula.prop_or_isAtom_of_mem_leaves f mem with ⟨x, rfl⟩ | isAtom
  · rfl
  · obtain ⟨p, found⟩ := Option.ne_none_iff_exists'.mp (denotes.known g mem)
    have known : reg.ofAtom? g = some p := by
      cases g with
      | atom => exact found
      | _ => cases isAtom
    obtain ⟨memP, rfl⟩ := mem_of_ofAtom? known
    simp only [leaf, found, Option.elim_some, values p memP]
    exact holds_numeric (plain p memP) numbers _ _

/-- The formula of a region holds for the numbers whose valuation is in the region. -/
theorem Spells.holds (spells : reg.Spells r.ref f) (valid : reg.Valid) (covered : reg.Over r)
    (plain : ∀ p ∈ reg.predicates, p.atom.Within .numeric) (values : reg.ValuesAt ops numbers v)
    (truth : String → Bool) : f.holds ops ⟨numbers, truth⟩ = reg.diagram.eval v r.ref := by
  rw [← Formula.value_holds, spells.value, spelled_holds]
  apply Diagram.eval_of_tests
  intro x tests
  obtain ⟨p, mem, rfl⟩ := covered x tests
  rw [valid.valuation_marker mem, values p mem]
  exact holds_numeric (plain p mem) numbers _ _

/-- A region whose predicates are about comparisons is the region of its formula. -/
theorem Denotes.eq_of_spells {s : Region} (denotes : reg'.Denotes f s) (spells : reg.Spells r.ref f)
    (canonical : reg.Canonical) (reaches : reg.Reaches reg') (has : reg.diagram.Has r.ref)
    (covered : reg.Over r) (atoms : ∀ p ∈ reg.predicates,
      reg.diagram.Tests r.ref (reg.diagram.var p.marker.ref) → p.atom.isAtom = true) : s = r := by
  have adds := reaches.adds
  have ordered := reaches.canonical.valid.diagram.ordered
  have same (v : Valuation) : reg'.diagram.eval v s.ref = reg'.diagram.eval v r.ref := by
    rw [denotes.eval, spells.value, adds.diagram.eval_valid canonical.valid.diagram has]
    apply Diagram.eval_of_tests
    intro x tests
    obtain ⟨p, mem, rfl⟩ := covered x tests
    have isAtom := atoms p mem tests
    have later : p ∈ reg'.predicates := adds.predicates.mem mem
    have spelled : reg.spelled (reg'.leaf v) (reg.diagram.var p.marker.ref) =
        p.atom.value (reg'.leaf v) := by simp [Registry.spelled, canonical.valid.atomOf_marker mem]
    have value : p.atom.value (reg'.leaf v) = reg'.leaf v p.atom := by
      cases atom : p.atom with
      | atom => rfl
      | _ => simp [atom, Formula.isAtom] at isAtom
    rw [spelled, value, reaches.canonical.leaf_atom later isAtom, adds.var_eq canonical.valid mem]
  exact congrArg Region.mk (ordered.eq_of_eval denotes.has (adds.diagram.has has) same)

/-- Only too many nodes stand against the region of a formula whose propositional variables name
predicates. -/
theorem ofFormula_ensures_of_named (canonical : reg.Canonical)
    (named : ∀ x, .prop x ∈ f.leaves → ∃ p ∈ reg.predicates, p.name = x) :
    Ensures (ofFormula f) reg (reg.Exhausts (stages f)) fun r reg' =>
      (reg.Reaches reg' ∧ reg'.Denotes f r) ∧ reg.Makes (stages f) reg' := by
  apply (ofFormula_denotes (.start canonical _) f mem_stages).imp fun _ _ => id
  rintro violation (exhausts | ⟨x, mem, missing, -⟩)
  · exact exhausts
  · obtain ⟨p, known, rfl⟩ := named x mem
    rw [canonical.valid.ofName?_name known] at missing
    cases missing

/-- Regions and formulas translate faithfully after every history of calls: the formula of a region over
predicates holds exactly for the numbers whose valuation is in the region, whatever formulas were kept; the
valuations in the region of a formula are those of the numbers for which it holds; and a region over
comparisons is the region of its formula. Only more nodes than there are numbers for can keep a region
from being made. -/
theorem History.translation (history : History reg kept) (ops : Operators) (numbers : TermVar → Int) :
    (∀ r : Region, reg.diagram.Has r.ref → reg.Over r → ∃ f kept',
      concrete reg.predicates reg.diagram r.ref kept = .ok (f, kept') ∧ reg.toFormula r = .ok f ∧
      ∀ v, reg.ValuesAt ops numbers v → ∀ truth,
        (f.holds ops ⟨numbers, truth⟩ = true ↔ reg.diagram.eval v r.ref = true)) ∧
    (∀ f : Formula, (∀ x, .prop x ∈ f.leaves → ∃ p ∈ reg.predicates, p.name = x) →
      Ensures (Registry.ofFormula f) reg (reg.Exhausts (stages f)) fun r reg' =>
        ∀ v, reg'.ValuesAt ops numbers v →
          (reg'.diagram.eval v r.ref = true ↔ f.holds ops (reg'.readAs numbers v) = true)) ∧
    ∀ r : Region, reg.diagram.Has r.ref → reg.Over r →
      (∀ p ∈ reg.predicates, reg.diagram.Tests r.ref (reg.diagram.var p.marker.ref) →
        p.atom.isAtom = true) → ∃ f kept',
          concrete reg.predicates reg.diagram r.ref kept = .ok (f, kept') ∧
          Ensures (Registry.ofFormula f) reg (reg.Exhausts (stages f)) fun s _ => s = r := by
  obtain ⟨canonical, plain, keeps⟩ := history.sound
  have valid := canonical.valid
  have ordered := valid.diagram.ordered
  refine ⟨?_, ?_, ?_⟩
  · intro r has covered
    obtain ⟨f, kept', made, alone⟩ := keeps.exists_concrete ordered has covered
    have spells := toFormula_spells ordered has alone
    refine ⟨f, kept', made, alone, fun v values truth => ?_⟩
    rw [spells.holds valid covered plain values truth]
  · intro f named
    apply (ofFormula_ensures_of_named canonical named).mono
    rintro r reg' ⟨⟨reaches, denotes⟩, -⟩ v values
    rw [denotes.holds (reaches.numeric plain) values]
  · intro r has covered atoms
    obtain ⟨f, kept', made, alone⟩ := keeps.exists_concrete ordered has covered
    have spells := toFormula_spells ordered has alone
    refine ⟨f, kept', made, ?_⟩
    have named : ∀ x, .prop x ∈ f.leaves → ∃ p ∈ reg.predicates, p.name = x := by
      intro x mem
      obtain ⟨p, memP, tests, inside⟩ := spells.leaves _ mem
      have numeric := Formula.within_of_mem_leaves p.atom (plain p memP) inside
      exact numeric.elim
    apply (ofFormula_ensures_of_named canonical named).mono
    rintro s reg' ⟨⟨reaches, denotes⟩, -⟩
    exact denotes.eq_of_spells spells canonical reaches has covered atoms

/-! ### Small formulas -/

/-- The region variables of leaves. -/
def leafVars (reg : Registry) (ls : List Formula) : Finset Nat :=
  (ls.filterMap fun g => (reg.ofLeaf? g).map fun p => reg.diagram.var p.marker.ref).toFinset

theorem card_leafVars_le (reg : Registry) (ls : List Formula) : (reg.leafVars ls).card ≤ ls.length :=
  (List.toFinset_card_le _).trans (List.length_filterMap_le _ _)

theorem Needs.onlyOn {k : Valuation → Bool} {ls : List Formula} (needs : reg.Needs fs k)
    (leaves : ∀ f ∈ fs, ∀ g ∈ f.leaves, g ∈ ls) : Diagram.OnlyOn (reg.leafVars ls) k := by
  obtain ⟨f, mem, known, of⟩ := needs
  apply Diagram.OnlyOn.cofactor _ of
  intro v w same
  apply Formula.value_congr
  intro g leaf
  obtain ⟨p, found⟩ := Option.ne_none_iff_exists'.mp (known g leaf)
  have inside : reg.diagram.var p.marker.ref ∈ reg.leafVars ls :=
    List.mem_toFinset.mpr (List.mem_filterMap.mpr ⟨g, leaves f mem g leaf, by rw [found]; rfl⟩)
  simp only [Registry.leaf, found, Option.elim_some, same _ inside]

theorem leaves_of_mem_stages {g h : Formula} (mem : g ∈ stages f) (leaf : h ∈ g.leaves) :
    h ∈ f.leaves := by
  obtain ⟨stage, here, side⟩ := List.mem_flatMap.mp mem
  apply Formula.leaves_of_mem_stages f here
  rcases List.mem_cons.mp side with rfl | side
  · exact leaf
  cases stage with
  | iff a b =>
    simp only [sides, List.mem_cons, List.not_mem_nil, or_false] at side
    rcases side with rfl | rfl <;> simpa [Formula.leaves, Formula.leavesAll] using leaf
  | _ => cases side

/-- Formulas of few leaves have regions. -/
theorem not_exhausts_stages {violation : Violation} {ls : List Formula} (leaves : ∀ g ∈ f.leaves, g ∈ ls)
    (room : reg.diagram.nodes.size + 2 ^ 2 ^ ls.length + 2 < 0x7fffffff) :
    ¬ reg.Exhausts (stages f) violation := by
  rintro ⟨reg', -, exhausts⟩
  have few := Nat.pow_le_pow_right (show 0 < 2 by decide)
    (Nat.pow_le_pow_right (show 0 < 2 by decide) (reg'.card_leafVars_le ls))
  have only (k : Valuation → Bool) (needs : reg'.Needs (stages f) k) :
      Diagram.OnlyOn (reg'.leafVars ls) k :=
    needs.onlyOn fun g mem h leaf => leaves h (leaves_of_mem_stages mem leaf)
  exact Diagram.not_exhausts_of_onlyOn only (by omega) exhausts

theorem Makes.size_le {ls : List Formula} (made : reg.Makes (stages f) reg')
    (leaves : ∀ g ∈ f.leaves, g ∈ ls) :
    reg'.diagram.nodes.size ≤ reg.diagram.nodes.size + 2 ^ 2 ^ ls.length := by
  have few := Nat.pow_le_pow_right (show 0 < 2 by decide)
    (Nat.pow_le_pow_right (show 0 < 2 by decide) (reg'.card_leafVars_le ls))
  have bound := made.builds.size_le_of_onlyOn fun k needs =>
    Needs.onlyOn needs fun g mem h leaf => leaves h (leaves_of_mem_stages mem leaf)
  omega

/-- The region of a formula whose leaves are known only tests variables of predicates. -/
theorem Denotes.over (denotes : reg.Denotes f r) (valid : reg.Valid) : reg.Over r := by
  intro x tests
  by_contra! other
  obtain ⟨v, differs⟩ := tests.depends valid.diagram.ordered denotes.has
  apply differs
  rw [denotes.eval, denotes.eval]
  apply Formula.value_congr
  intro g leaf
  obtain ⟨p, found⟩ := Option.ne_none_iff_exists'.mp (denotes.known g leaf)
  have apart := other p (mem_of_ofLeaf? found)
  simp only [Registry.leaf, found, Option.elim_some, Function.update_of_ne apart]

namespace Either

def less : Formula := .atom .lt (.symbolic "x") (.const 5)

def equal : Formula := .atom .eq (.symbolic "y") (.const 1)

def either : Formula := .nary .or [less, .not equal]

theorem leaves_either : ∀ g ∈ either.leaves, g ∈ [less, equal] := fun _ mem => mem

theorem holds_either {m : Assignment} : either.holds .standard m = true ↔
    m.number ⟨"x", none⟩ < 5 ∨ m.number ⟨"y", none⟩ ≠ 1 := by
  simp only [either, less, equal, Formula.holds, Formula.holdsNary, Connective.combine, Connective.unit,
    Relation.holds, Bool.or_false, Bool.or_eq_true, Bool.not_eq_true']
  exact or_congr decide_eq_true_iff decide_eq_false_iff_not

/-- Among the formulas on the way to the region only two are atoms. -/
theorem atom_of_mem_stages {f : Formula} (mem : f ∈ stages either) (isAtom : f.isAtom = true) :
    f ∈ [less, equal] := by
  simp [stages, either, Formula.stages, Formula.stagesAll, less, equal, sides] at mem
  rcases mem with rfl | rfl | rfl | rfl
  · exact List.mem_cons_self
  · cases isAtom
  · exact List.mem_cons_of_mem _ List.mem_cons_self
  · cases isAtom

/-- The region of the formula is made, with a predicate for each atom. -/
theorem exists_region : ∃ d r reg, Registry.empty = .ok ⟨d, []⟩ ∧
    Registry.ofFormula either ⟨d, []⟩ = .ok (r, reg) ∧ reg.Denotes either r ∧
    (∀ p ∈ reg.predicates, p.atom ∈ [less, equal]) ∧ reg.diagram.nodes.size ≤ 2 ^ 2 ^ 2 := by
  obtain ⟨d, empty⟩ := exists_empty
  have none : d.nodes.size = 0 := by simpa using empty_nodes empty
  have noProps : ∀ x, .prop x ∈ either.leaves →
      ∃ p ∈ (⟨d, []⟩ : Registry).predicates, p.name = x := by
    intro x mem
    simp [either, less, equal, Formula.leaves, Formula.leavesAll] at mem
  have room (v : Violation) : ¬ (⟨d, []⟩ : Registry).Exhausts (stages either) v :=
    not_exhausts_stages leaves_either (by simp [none])
  have canonical := (History.start empty).sound.canonical
  obtain ⟨r, reg, run, ⟨reaches, denotes⟩, made⟩ :=
    ((ofFormula_ensures_of_named canonical noProps).weaken room).exists_run
  refine ⟨d, r, reg, empty, run, denotes, fun p mem => ?_, ?_⟩
  · exact atom_of_mem_stages ((made.origin p mem).resolve_left List.not_mem_nil)
      ((reaches.new p mem).resolve_left List.not_mem_nil)
  · simpa [none] using made.size_le leaves_either

theorem isAtom_of_mem {f : Formula} (mem : f ∈ [less, equal]) : f.isAtom = true ∧ f.leaves = [f] := by
  simp only [List.mem_cons, List.not_mem_nil, or_false] at mem
  rcases mem with rfl | rfl
  · exact ⟨rfl, rfl⟩
  · exact ⟨rfl, rfl⟩

end Either

open Either in
/-- `x < 5 ∨ y ≠ 1` becomes a region, the region becomes a formula that holds for the same numbers, and
this becomes the region again. -/
theorem translation_less_than : ∃ reg r f kept, History reg kept ∧
    concrete reg.predicates reg.diagram r.ref ∅ = .ok (f, kept) ∧
    (∀ numbers : TermVar → Int,
      f.holds .standard ⟨numbers, fun _ => false⟩ = true ↔
        numbers ⟨"x", none⟩ < 5 ∨ numbers ⟨"y", none⟩ ≠ 1) ∧
    ∃ reg', Registry.ofFormula f reg = .ok (r, reg') := by
  obtain ⟨d, r, reg, empty, run, denotes, atoms, size⟩ := exists_region
  have history : History reg ∅ := .ofFormula (.start empty) run
  have valid := history.sound.canonical.valid
  have covered := denotes.over valid
  obtain ⟨-, -, back⟩ := history.translation .standard fun _ => 0
  obtain ⟨f, kept, made, region⟩ := back r denotes.has covered fun p mem _ =>
    (isAtom_of_mem (atoms p mem)).1
  -- The formula that is read has no other leaves, so there is room for its region.
  have spells := (concrete_writes valid.diagram.ordered denotes.has reg.keeps_empty made).1.spells
    valid.diagram.ordered denotes.has
  have few : ∀ g ∈ f.leaves, g ∈ [less, equal] := by
    intro g leaf
    obtain ⟨p, mem, -, inside⟩ := spells.leaves g leaf
    rw [(isAtom_of_mem (atoms p mem)).2, List.mem_singleton] at inside
    exact inside ▸ atoms p mem
  have room (v : Violation) : ¬ reg.Exhausts (stages f) v :=
    not_exhausts_stages few (by simp at size ⊢; omega)
  obtain ⟨s, reg', run', same⟩ := (region.weaken room).exists_run
  refine ⟨reg, r, f, kept, .toFormula history denotes.has made, made, fun numbers => ?_, reg',
    same ▸ run'⟩
  obtain ⟨reads, -, -⟩ := history.translation .standard numbers
  obtain ⟨f', kept', again, -, holds⟩ := reads r denotes.has covered
  cases made.symm.trans again
  have values := valid.valuesAt_valuation .standard numbers
  rw [holds _ values, denotes.holds history.sound.numeric values]
  exact holds_either

end Registry

end ProgramAnalysis
