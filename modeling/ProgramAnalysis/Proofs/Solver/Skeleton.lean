import Mathlib.Data.List.Nodup
import Mathlib.Data.List.Sort
import ProgramAnalysis.Formula.Meaning
import ProgramAnalysis.Proofs.Diagram.Connectives
import ProgramAnalysis.Proofs.Diagram.Enumeration
import ProgramAnalysis.Proofs.Formula.Vocabulary
import ProgramAnalysis.Solver.Skeleton

/-! The skeleton of a formula has the meaning of the formula. A reference that is made for a formula has the
value of the formula when the variables of the diagram are the values of its atoms, so under an assignment
the root is true exactly if the formula holds. The variables are the atoms met so far, each once, and every
variable has brought a node of its own, so there are always numbers left for variables. All nodes are those
of the formulas on the way, and only these can be too many. -/
namespace ProgramAnalysis

open Checked (Ensures)
open Diagram (Cofactor)

theorem getElem?_of_idxOf? {α : Type} [BEq α] [LawfulBEq α] {xs : Array α} {a : α} {i : Nat}
    (found : xs.idxOf? a = some i) : xs[i]? = some a := by
  cases xs with
  | mk l =>
    rw [List.idxOf?_toArray, List.idxOf?_eq_some_iff] at found
    obtain ⟨inside, here, -⟩ := found
    simpa [inside] using here

theorem idxOf?_of_getElem? {α : Type} [BEq α] [LawfulBEq α] {xs : Array α} {a : α} {i : Nat}
    (nodup : xs.toList.Nodup) (here : xs[i]? = some a) : xs.idxOf? a = some i := by
  cases xs with
  | mk l =>
    obtain ⟨inside, rfl⟩ := Array.getElem?_eq_some_iff.mp here
    rw [List.idxOf?_toArray, List.idxOf?_eq_some_iff]
    refine ⟨inside, rfl, fun j before same => ?_⟩
    have := nodup.getElem_inj_iff.mp same
    omega

/-- More elements behind do not change where one is found. -/
theorem idxOf?_of_prefix {α : Type} [BEq α] {xs ys : Array α} {a : α} {i : Nat}
    (before : xs.toList <+: ys.toList) (found : xs.idxOf? a = some i) : ys.idxOf? a = some i := by
  obtain ⟨more, whole⟩ := before
  cases xs with
  | mk l =>
    cases ys with
    | mk l' =>
      obtain rfl : l ++ more = l' := whole
      rw [List.idxOf?_toArray, List.idxOf?] at found ⊢
      rw [List.findIdx?_append, found, Option.some_or]

theorem nodup_push {α : Type} {xs : Array α} {a : α} (nodup : xs.toList.Nodup) (new : a ∉ xs) :
    (xs.push a).toList.Nodup := by
  rw [Array.toList_push, List.nodup_append]
  refine ⟨nodup, by simp, ?_⟩
  rintro b old c here rfl
  exact new (Array.mem_toList_iff.mp (List.mem_singleton.mp here ▸ old))

theorem filterMap_range_getElem? {α β : Type} (xs : List α) (k : α → β) :
    ((List.range xs.length).filterMap fun i => xs[i]?.map k) = xs.map k := by
  induction xs with
  | nil => rfl
  | cons x xs ih => simp [List.range_succ_eq_map, List.filterMap_map, ih]

namespace SkeletonState

variable {s t u : SkeletonState} {r r' : Ref} {f g : Formula} {fs gs hs : List Formula}
  {atoms : Array Formula} {d d₀ e : Diagram}

/-! ### The atoms -/

/-- The truth values of atoms, as values of the variables that stand for them. -/
def valuation (ops : Operators) (m : Assignment) (atoms : Array Formula) : Valuation
  | 0 => false
  | i + 1 => (atoms[i]?).any (·.holds ops m)

/-- The values of atoms, from the values of the variables that stand for them. -/
def leaf (atoms : Array Formula) (v : Valuation) (a : Formula) : Bool :=
  (atoms.idxOf? a).elim false fun i => v (i + 1)

theorem leaf_valuation {a : Formula} (mem : a ∈ atoms) (ops : Operators) (m : Assignment) :
    leaf atoms (valuation ops m atoms) a = a.holds ops m := by
  obtain ⟨i, found⟩ := Option.isSome_iff_exists.mp (Array.isSome_idxOf?.mpr mem)
  simp [leaf, found, valuation, getElem?_of_idxOf? found]

/-- Puts an atom behind the others, unless it is one of them. -/
def note (atoms : Array Formula) (f : Formula) : Array Formula :=
  if f ∈ atoms then atoms else atoms.push f

theorem note_of_mem (old : f ∈ atoms) : note atoms f = atoms := if_pos old

theorem note_of_not_mem (new : f ∉ atoms) : note atoms f = atoms.push f := if_neg new

theorem mem_of_mem_note {a : Formula} (mem : a ∈ fs.foldl note atoms) : a ∈ atoms ∨ a ∈ fs := by
  induction fs generalizing atoms with
  | nil => exact .inl mem
  | cons f fs ih =>
    rcases ih mem with mem | mem
    · unfold note at mem
      split at mem
      · exact .inl mem
      · rcases Array.mem_push.mp mem with mem | rfl
        · exact .inl mem
        · exact .inr List.mem_cons_self
    · exact .inr (List.mem_cons_of_mem f mem)

theorem mem_note_of_mem {a : Formula} (mem : a ∈ atoms ∨ a ∈ fs) : a ∈ fs.foldl note atoms := by
  induction fs generalizing atoms with
  | nil => exact mem.resolve_right List.not_mem_nil
  | cons f fs ih =>
    refine ih ?_
    rw [List.mem_cons, ← or_assoc] at mem
    refine mem.imp_left fun here => ?_
    unfold note
    split
    · rename_i old
      exact here.elim id fun same => same ▸ old
    · exact Array.mem_push.mpr here

theorem prefix_foldl_note (atoms : Array Formula) (fs : List Formula) :
    atoms.toList <+: (fs.foldl note atoms).toList := by
  induction fs generalizing atoms with
  | nil => exact List.prefix_refl _
  | cons f fs ih =>
    refine .trans ?_ (ih (note atoms f))
    unfold note
    split
    · exact List.prefix_refl _
    · exact Array.toList_push ▸ List.prefix_append _ _

/-! ### Skeletons on the way -/

structure Faithful (s : SkeletonState) : Prop where
  valid : s.diagram.Valid
  vars : s.diagram.vars = s.atoms.size
  enough : s.atoms.size ≤ s.diagram.nodes.size
  nodup : s.atoms.toList.Nodup

/-- A reference with the value of a formula over the atoms. -/
structure Denotes (atoms : Array Formula) (d : Diagram) (f : Formula) (r : Ref) : Prop where
  has : d.Has r
  eval : ∀ v, d.eval v r = f.value (leaf atoms v)

/-- The functions of the nodes for formulas over the atoms. -/
def Needs (atoms : Array Formula) (fs : List Formula) (k : Valuation → Bool) : Prop :=
  ∃ f ∈ fs, Cofactor (fun v => f.value (leaf atoms v)) k

/-- A skeleton on the way: its variables are the first of the atoms and its nodes are for the formulas. -/
structure Makes (d₀ : Diagram) (atoms : Array Formula) (fs : List Formula) (s : SkeletonState) :
    Prop where
  faithful : s.Faithful
  first : s.atoms.toList <+: atoms.toList
  builds : d₀.Builds (Needs atoms fs) s.diagram

/-- A later skeleton, where `gs` were met in between. -/
structure Reaches (s t : SkeletonState) (gs : List Formula) : Prop where
  grown : t.diagram.Extends s.diagram
  met : t.atoms = gs.foldl note s.atoms

theorem Reaches.refl (s : SkeletonState) : s.Reaches s [] := ⟨.refl _, rfl⟩

theorem Reaches.trans (first : s.Reaches t gs) (second : t.Reaches u hs) : s.Reaches u (gs ++ hs) := by
  refine ⟨second.grown.trans first.grown, ?_⟩
  rw [second.met, first.met, List.foldl_append]

theorem Denotes.later (denotes : Denotes atoms d f r) (valid : d.Valid) (grown : e.Extends d) :
    Denotes atoms e f r :=
  ⟨grown.has denotes.has, fun v => (grown.eval_valid valid denotes.has v).trans (denotes.eval v)⟩

theorem Denotes.congr (denotes : Denotes atoms d f r)
    (same : ∀ leaf, f.value leaf = g.value leaf) : Denotes atoms d g r :=
  ⟨denotes.has, fun v => (denotes.eval v).trans (same _)⟩

theorem Denotes.not (denotes : Denotes atoms d f r) (valid : d.Valid) :
    Denotes atoms d (.not f) (-r) := by
  refine ⟨Diagram.has_neg.mpr denotes.has, fun v => ?_⟩
  rw [valid.ordered.eval_neg v r denotes.has.1, denotes.eval, Formula.value]

theorem denotes_bool (atoms : Array Formula) (d : Diagram) (b : Bool) :
    Denotes atoms d (.bool b) (if b then .one else .zero) := by
  cases b with
  | true => exact ⟨d.has_one, d.eval_one⟩
  | false => exact ⟨d.has_zero, d.eval_zero⟩

/-- Where all its leaves are atoms, a formula has its value from the truth values of the atoms. -/
theorem Denotes.eval_valuation (denotes : Denotes atoms d f r) (known : ∀ a ∈ f.leaves, a ∈ atoms)
    (ops : Operators) (m : Assignment) : d.eval (valuation ops m atoms) r = f.holds ops m := by
  rw [denotes.eval, ← Formula.value_holds]
  exact Formula.value_congr f fun a mem => leaf_valuation (known a mem) ops m

theorem Faithful.size_lt (faithful : s.Faithful) : s.atoms.size + 2 ≤ 0x7fffffff := by
  have := faithful.enough
  have := faithful.valid.size_le
  omega

theorem Faithful.grows (faithful : s.Faithful) (grown : s.diagram.Grows d) : Faithful ⟨d, s.atoms⟩ :=
  ⟨grown.valid, grown.vars.trans faithful.vars,
    Nat.le_trans faithful.enough grown.nodes.size_le, faithful.nodup⟩

theorem Faithful.push (faithful : s.Faithful) (new : f ∉ s.atoms)
    (grown : Diagram.Grows { s.diagram with vars := s.diagram.vars + 1 } d) (has : d.Has r)
    (eval : ∀ v, d.eval v r = v (s.diagram.vars + 1)) : Faithful ⟨d, s.atoms.push f⟩ := by
  have nodes : d.Extends s.diagram := grown.nodes
  have larger : s.diagram.nodes.size < d.nodes.size :=
    Diagram.size_lt_of_fresh faithful.valid nodes (Nat.lt_succ_self _) has eval
  have enough := faithful.enough
  refine ⟨grown.valid, ?_, ?_, nodup_push faithful.nodup new⟩
  · rw [grown.vars, Array.size_push, faithful.vars]
  · simp only [Array.size_push]
    omega

theorem Makes.grows (made : Makes d₀ atoms fs s) (grown : s.diagram.Grows d)
    (builds : d₀.Builds (Needs atoms fs) d) : Makes d₀ atoms fs ⟨d, s.atoms⟩ :=
  ⟨made.faithful.grows grown, made.first, builds⟩

end SkeletonState

namespace SkeletonM

open SkeletonState

variable {s : SkeletonState} {d₀ : Diagram} {atoms : Array Formula} {fs : List Formula} {f g : Formula}
  {r r' : Ref}

theorem onDiagram_ensures {act : DiagramM Ref} {bad : Violation → Prop}
    {good : Ref → SkeletonState → Prop} :
    Ensures (onDiagram act) s bad good ↔
      Ensures act s.diagram bad fun r d => good r ⟨d, s.atoms⟩ :=
  Checked.ensures_zoom

/-- A propositional variable or an arithmetic atom brings the node of its variable. -/
theorem atom_ensures (made : Makes d₀ atoms fs s) (mem : f ∈ fs) (own : ∀ leaf, f.value leaf = leaf f)
    (met : (note s.atoms f).toList <+: atoms.toList) :
    Ensures (atom f) s (d₀.Exhausts (Needs atoms fs)) fun r t =>
      (s.Reaches t [f] ∧ Denotes atoms t.diagram f r) ∧ Makes d₀ atoms fs t := by
  have faithful := made.faithful
  have room := faithful.size_lt
  -- The function of the variable is the value of the atom, wherever the atom stands.
  have value {i : Nat} (found : atoms.idxOf? f = some i) (v : Valuation) :
      v (i + 1) = f.value (leaf atoms v) := by simp [own, leaf, found]
  have needs {i : Nat} (found : atoms.idxOf? f = some i) (k : Valuation → Bool)
      (of : Cofactor (fun v => v (i + 1)) k) : Needs atoms fs k :=
    ⟨f, mem, by simpa only [← value found] using of⟩
  unfold atom
  rw [Checked.ensures_bind, Checked.ensures_get]
  split
  · rename_i i found
    have here := getElem?_of_idxOf? found
    have bound := (Array.getElem?_eq_some_iff.mp here).1
    have place := idxOf?_of_prefix made.first found
    rw [onDiagram_ensures]
    apply (Diagram.mkVar_ensures faithful.valid (by omega) (by rw [faithful.vars]; omega)
      (by unfold Diagram.bottomLevel; omega)).imp _ fun _ full => made.builds.exhausts full
    rintro r d ⟨⟨grown, has, eval⟩, builds⟩
    have same : note s.atoms f = s.atoms := note_of_mem (Array.mem_of_getElem? here)
    exact ⟨⟨⟨grown.nodes, same.symm⟩, has, fun v => (eval v).trans (value place v)⟩,
      made.grows grown (made.builds.trans (builds.mono (needs place)))⟩
  · rename_i missing
    have new : f ∉ s.atoms := by simpa using missing
    rw [note_of_not_mem new] at met
    have place : atoms.idxOf? f = some s.diagram.vars := by
      apply idxOf?_of_prefix met
      exact idxOf?_of_getElem? (nodup_push faithful.nodup new) (by simp [faithful.vars])
    rw [Checked.ensures_bind]
    unfold onDiagram
    rw [Checked.ensures_zoom]
    refine (Diagram.newVar_ensures s.diagram).imp ?_ ?_
    · rintro x d ⟨rfl, rfl⟩
      rw [Checked.ensures_bind, Checked.ensures_modify, Checked.ensures_zoom]
      have small : s.diagram.vars + 1 < Diagram.bottomLevel := by
        have := faithful.vars
        unfold Diagram.bottomLevel
        omega
      apply (Diagram.mkVar_ensures (faithful.valid.withVars (Nat.le_succ _)) (Nat.succ_ne_zero _)
        (Nat.le_refl _) small).imp _ fun _ full => made.builds.exhausts full
      rintro r d ⟨⟨grown, has, eval⟩, builds⟩
      have one : s.diagram.Builds (Needs atoms fs) d :=
        ⟨grown.valid, grown.nodes, (builds.mono (needs place)).needed⟩
      exact ⟨⟨⟨grown.nodes, (note_of_not_mem new).symm⟩, has, fun v => (eval v).trans (value place v)⟩,
        faithful.push new grown has eval, met, made.builds.trans one⟩
    · rintro v ⟨-, full⟩
      have inUse := faithful.vars
      omega

/-- An operation on the diagram that gives the value of one of the formulas. -/
theorem onDiagram_denotes {act : DiagramM Ref} (made : Makes d₀ atoms fs s)
    (gives : Ensures act s.diagram (d₀.Exhausts (Needs atoms fs)) fun r e =>
      (s.diagram.Gives e r fun v => f.value (leaf atoms v)) ∧ d₀.Builds (Needs atoms fs) e) :
    Ensures (onDiagram act) s (d₀.Exhausts (Needs atoms fs)) fun r t =>
      (s.Reaches t [] ∧ Denotes atoms t.diagram f r) ∧ Makes d₀ atoms fs t := by
  rw [onDiagram_ensures]
  apply gives.mono
  rintro r d ⟨given, builds⟩
  exact ⟨⟨⟨given.grows.nodes, rfl⟩, given.has, given.eval⟩, made.grows given.grows builds⟩

theorem connect_ensures {c : Connective} {done : List Formula} (made : Makes d₀ atoms fs s)
    (mem : .nary c (done ++ [f]) ∈ fs) (soFar : Denotes atoms s.diagram (.nary c done) r)
    (next : Denotes atoms s.diagram f r') :
    Ensures (connect c r r') s (d₀.Exhausts (Needs atoms fs)) fun r t =>
      (s.Reaches t [] ∧ Denotes atoms t.diagram (.nary c (done ++ [f])) r) ∧ Makes d₀ atoms fs t := by
  have value (v : Valuation) : c.combine (s.diagram.eval v r) (s.diagram.eval v r') =
      (Formula.nary c (done ++ [f])).value (leaf atoms v) := by
    rw [soFar.eval, next.eval, Formula.value, Formula.value, Formula.valueNary_append]
    cases c <;> simp [Formula.valueNary, Connective.combine, Connective.unit]
  have needs (k : Valuation → Bool)
      (of : Cofactor (fun v => (Formula.nary c (done ++ [f])).value (leaf atoms v)) k) :
      Needs atoms fs k := ⟨_, mem, of⟩
  cases c with
  | and => exact onDiagram_denotes made (made.builds.and soFar.has next.has value needs)
  | or => exact onDiagram_denotes made (made.builds.or soFar.has next.has value needs)

theorem iff_ensures (made : Makes d₀ atoms fs s) (mem : .iff f g ∈ fs)
    (first : Denotes atoms s.diagram f r) (second : Denotes atoms s.diagram g r') :
    Ensures (onDiagram (Diagram.iff r r')) s (d₀.Exhausts (Needs atoms fs)) fun r t =>
      (s.Reaches t [] ∧ Denotes atoms t.diagram (.iff f g) r) ∧ Makes d₀ atoms fs t := by
  apply onDiagram_denotes made
  apply made.builds.iff first.has second.has
  · intro v
    rw [first.eval, second.eval, Formula.value]
  · exact fun k of => ⟨_, mem, of⟩

mutual

theorem ofFormula_ensures {s : SkeletonState} (made : Makes d₀ atoms fs s) (f : Formula)
    (sub : ∀ g ∈ f.stages, g ∈ fs) (met : (f.leaves.foldl note s.atoms).toList <+: atoms.toList) :
    Ensures (ofFormula f) s (d₀.Exhausts (Needs atoms fs)) fun r t =>
      (s.Reaches t f.leaves ∧ Denotes atoms t.diagram f r) ∧ Makes d₀ atoms fs t := by
  cases f with
  | bool b => exact ⟨⟨.refl s, denotes_bool atoms s.diagram b⟩, made⟩
  | prop x => exact atom_ensures made (sub _ List.mem_cons_self) (fun _ => rfl) met
  | atom rel a b => exact atom_ensures made (sub _ List.mem_cons_self) (fun _ => rfl) met
  | not f =>
    rw [ofFormula, Checked.ensures_bind]
    apply (ofFormula_ensures made f sub met).mono
    rintro r t ⟨⟨reaches, denotes⟩, made⟩
    exact ⟨⟨reaches, denotes.not made.faithful.valid⟩, made⟩
  | nary c gs =>
    rw [ofFormula]
    exact ofArgs_ensures made ((denotes_bool atoms s.diagram c.unit).congr fun _ => rfl) gs sub met
  | iff a b =>
    rw [Formula.stages, List.forall_mem_append, List.forall_mem_append] at sub
    obtain ⟨⟨subA, subB⟩, subIff⟩ := sub
    rw [Formula.leaves, List.foldl_append] at met
    rw [ofFormula, Checked.ensures_bind]
    apply (ofFormula_ensures made a subA (.trans (prefix_foldl_note _ _) met)).mono
    rintro r t ⟨⟨first, ofA⟩, made₁⟩
    rw [← first.met] at met
    rw [Checked.ensures_bind]
    apply (ofFormula_ensures made₁ b subB met).mono
    rintro r' u ⟨⟨second, ofB⟩, made₂⟩
    have ofA := ofA.later made₁.faithful.valid second.grown
    apply (iff_ensures made₂ (subIff _ List.mem_cons_self) ofA ofB).mono
    rintro r'' w ⟨⟨third, denotes⟩, made₃⟩
    refine ⟨⟨?_, denotes⟩, made₃⟩
    simpa [Formula.leaves] using (first.trans second).trans third

theorem ofArgs_ensures {s : SkeletonState} {c : Connective} {done : List Formula} {acc : Ref}
    (made : Makes d₀ atoms fs s) (soFar : Denotes atoms s.diagram (.nary c done) acc)
    (gs : List Formula) (sub : ∀ g ∈ Formula.stagesAll c done gs, g ∈ fs)
    (met : ((Formula.leavesAll gs).foldl note s.atoms).toList <+: atoms.toList) :
    Ensures (ofArgs c acc gs) s (d₀.Exhausts (Needs atoms fs)) fun r t =>
      (s.Reaches t (Formula.leavesAll gs) ∧ Denotes atoms t.diagram (.nary c (done ++ gs)) r) ∧
        Makes d₀ atoms fs t := by
  cases gs with
  | nil =>
    rw [List.append_nil]
    exact ⟨⟨.refl s, soFar⟩, made⟩
  | cons g gs =>
    rw [Formula.stagesAll, List.forall_mem_append, List.forall_mem_cons] at sub
    obtain ⟨subG, joined, rest⟩ := sub
    rw [Formula.leavesAll, List.foldl_append] at met
    rw [ofArgs, Checked.ensures_bind]
    apply (ofFormula_ensures made g subG (.trans (prefix_foldl_note _ _) met)).mono
    rintro r t ⟨⟨first, denotes⟩, made₁⟩
    rw [← first.met] at met
    rw [Checked.ensures_bind]
    apply (connect_ensures made₁ joined (soFar.later made.faithful.valid first.grown) denotes).mono
    rintro acc' u ⟨⟨second, joined⟩, made₂⟩
    rw [show t.atoms = u.atoms from second.met.symm] at met
    apply (ofArgs_ensures made₂ joined gs rest met).mono
    rintro r' w ⟨⟨third, all⟩, made₃⟩
    rw [List.append_assoc] at all
    refine ⟨⟨?_, all⟩, made₃⟩
    simpa [Formula.leavesAll] using (first.trans second).trans third

end

end SkeletonM

def Assignment.withTruth (m : Assignment) (x : String) (b : Bool) : Assignment :=
  { m with truth := Function.update m.truth x b }

namespace Skeleton

/-- The atoms of a formula from left to right, each once. -/
def atomsOf (f : Formula) : Array Formula := f.leaves.foldl SkeletonState.note #[]

/-- The nodes for the formula are too many for the diagram that a skeleton starts with. -/
def Exhausts (f : Formula) (v : Violation) : Prop :=
  ∃ d, Diagram.ofBits tableBits = .ok d ∧ d.Exhausts (SkeletonState.Needs (atomsOf f) f.stages) v

theorem Exhausts.eq {f : Formula} {v : Violation} (exhausts : Exhausts f v) : v = .nodesExhausted := by
  obtain ⟨d, -, same, -⟩ := exhausts
  exact same

/-- A skeleton that belongs to a formula. -/
structure Encodes (k : Skeleton) (f : Formula) : Prop where
  faithful : SkeletonState.Faithful ⟨k.diagram, k.atoms⟩
  root : SkeletonState.Denotes k.atoms k.diagram f k.root
  atoms : k.atoms = atomsOf f

/-- A formula has a skeleton, unless it needs too many nodes. -/
theorem ofFormula_cases (f : Formula) : (∃ k, ofFormula f = .ok k ∧ k.Encodes f) ∨
    ∃ v, ofFormula f = .error v ∧ Exhausts f v := by
  obtain ⟨d, start⟩ := Diagram.ofBits_ok (show tableBits ≤ 31 by decide)
  obtain ⟨valid, empty, vars⟩ := Diagram.ofBits_valid start
  have made : SkeletonState.Makes d (atomsOf f) f.stages ⟨d, #[]⟩ :=
    ⟨⟨valid, vars, by simp, by simp⟩, by simp, .refl valid⟩
  have ensured := SkeletonM.ofFormula_ensures made f (fun _ => id) (List.prefix_refl _)
  unfold ofFormula
  simp only [start, bind, Except.bind]
  cases run : (SkeletonM.ofFormula f).run ⟨d, #[]⟩ with
  | error v => exact .inr ⟨v, rfl, d, start, ensured.of_error run⟩
  | ok r =>
    obtain ⟨root, s⟩ := r
    obtain ⟨⟨reaches, denotes⟩, made⟩ := ensured.of_ok run
    have atoms : s.atoms = atomsOf f := reaches.met
    exact .inl ⟨_, rfl, made.faithful, atoms ▸ denotes, atoms⟩

theorem ofFormula_encodes {f : Formula} {k : Skeleton} (made : ofFormula f = .ok k) : k.Encodes f := by
  rcases ofFormula_cases f with ⟨k', made', encodes⟩ | ⟨v, broken, -⟩
  · cases made.symm.trans made'
    exact encodes
  · cases made.symm.trans broken

theorem exhausts_of_ofFormula {f : Formula} {v : Violation} (broken : ofFormula f = .error v) :
    Exhausts f v := by
  rcases ofFormula_cases f with ⟨k, made, -⟩ | ⟨w, broken', exhausts⟩
  · cases made.symm.trans broken
  · cases broken.symm.trans broken'
    exact exhausts

variable {k : Skeleton} {f : Formula} {ops : Operators} {m : Assignment}

theorem Encodes.leaves (encodes : k.Encodes f) : ∀ a ∈ k.atoms, a ∈ f.leaves := by
  intro a mem
  rw [encodes.atoms] at mem
  exact (SkeletonState.mem_of_mem_note mem).resolve_left (by simp)

theorem Encodes.mem_atoms (encodes : k.Encodes f) {a : Formula} (leaf : a ∈ f.leaves) : a ∈ k.atoms := by
  rw [encodes.atoms]
  exact SkeletonState.mem_note_of_mem (.inr leaf)

theorem Encodes.varsBelow (encodes : k.Encodes f) : k.diagram.VarsBelow 0x80000000 := by
  intro i n inside
  have := encodes.faithful.valid.var_le i n inside
  have := encodes.faithful.vars
  have := encodes.faithful.size_lt
  simp only at *
  omega

def Holds (k : Skeleton) (ops : Operators) (m : Assignment) (path : List Int) : Prop :=
  ∀ l ∈ k.literals path, l.1.holds ops m = l.2

theorem Encodes.exists_atom (encodes : k.Encodes f) {path : List Int}
    (mem : path ∈ k.diagram.paths k.root) : ∀ lit ∈ path, ∃ a,
      k.atoms[lit.natAbs - 1]? = some a ∧
        ∀ ops m, SkeletonState.valuation ops m k.atoms lit.natAbs = a.holds ops m := by
  intro lit inside
  obtain ⟨i, n, here, same⟩ :=
    Diagram.exists_node_of_mem_paths encodes.varsBelow mem lit inside
  have inUse : n.var ≤ k.atoms.size := encodes.faithful.vars ▸ encodes.faithful.valid.var_le i n here
  obtain ⟨x, var⟩ := Nat.exists_eq_succ_of_ne_zero (k.diagram.reduced i n here).var_ne_zero
  rw [same, var, Nat.succ_eq_add_one, Nat.add_sub_cancel]
  have known : k.atoms[x]? = some k.atoms[x] := Array.getElem?_eq_getElem (by omega)
  exact ⟨k.atoms[x], known, by simp [SkeletonState.valuation, known]⟩

theorem Encodes.holds_iff (encodes : k.Encodes f) {path : List Int}
    (mem : path ∈ k.diagram.paths k.root) : k.Holds ops m path ↔
      ∀ lit ∈ path, Diagram.Satisfies (SkeletonState.valuation ops m k.atoms) lit := by
  constructor
  · intro holds lit inside
    obtain ⟨a, here, value⟩ := encodes.exists_atom mem lit inside
    have literal : (a, decide (0 < lit)) ∈ k.literals path :=
      List.mem_filterMap.mpr ⟨lit, inside, by rw [here]; rfl⟩
    exact (value ops m).trans (holds _ literal)
  · intro satisfied l literal
    obtain ⟨lit, inside, found⟩ := List.mem_filterMap.mp literal
    obtain ⟨a, here, rfl⟩ := Option.map_eq_some_iff.mp found
    obtain ⟨a', there, value⟩ := encodes.exists_atom mem lit inside
    cases here.symm.trans there
    exact (value ops m).symm.trans (satisfied lit inside)

theorem Encodes.mem_leaves (encodes : k.Encodes f) {path : List Int} {l : Formula × Bool}
    (mem : l ∈ k.literals path) : l.1 ∈ f.leaves := by
  obtain ⟨lit, -, found⟩ := List.mem_filterMap.mp mem
  obtain ⟨a, here, rfl⟩ := Option.map_eq_some_iff.mp found
  exact encodes.leaves a (Array.mem_of_getElem? here)

/-- The literals of a path speak of nothing that the formula does not. -/
theorem Encodes.literals_within {L : Vocabulary} (encodes : k.Encodes f) (within : f.Within L)
    (path : List Int) : ∀ l ∈ k.literals path, l.1.Within L :=
  fun _ mem => Formula.within_of_mem_leaves f within (encodes.mem_leaves mem)

/-- A formula holds exactly if the literals of one of its paths hold. -/
theorem Encodes.holds_iff_exists_path (encodes : k.Encodes f) : f.holds ops m = true ↔
    ∃ path ∈ k.diagram.paths k.root, k.Holds ops m path := by
  rw [← encodes.root.eval_valuation (fun _ => encodes.mem_atoms) ops m,
    Diagram.eval_iff_paths encodes.faithful.valid.ordered encodes.varsBelow encodes.root.has]
  exact exists_congr fun path => and_congr_right fun mem => (encodes.holds_iff mem).symm

theorem Encodes.exists_path (encodes : k.Encodes f) (holds : f.holds ops m = true) :
    ∃ path ∈ k.diagram.paths k.root, k.Holds ops m path := encodes.holds_iff_exists_path.mp holds

/-- An atom stands on a path that holds, if the formula fails where only this atom differs. -/
theorem Encodes.mem_literals (encodes : k.Encodes f) {path : List Int}
    (mem : path ∈ k.diagram.paths k.root) (holds : k.Holds ops m path) {a : Formula}
    {n : Assignment} (same : ∀ b ∈ f.leaves, b ≠ a → b.holds ops n = b.holds ops m)
    (fails : f.holds ops n = false) : (a, a.holds ops m) ∈ k.literals path := by
  by_contra absent
  have changed : k.Holds ops n path := by
    intro l inside
    have other : l.1 ≠ a := by
      rintro rfl
      exact absent (holds l inside ▸ inside)
    rw [same l.1 (encodes.mem_leaves inside) other, holds l inside]
  rw [encodes.holds_iff_exists_path.mpr ⟨path, mem, changed⟩] at fails
  cases fails

/-- A propositional variable that has one value in all models is on every path that holds somewhere. -/
theorem Encodes.mem_literals_of_forced (encodes : k.Encodes f) {path : List Int}
    (mem : path ∈ k.diagram.paths k.root) (holds : k.Holds ops m path) {x : String} {b : Bool}
    (forced : ∀ m, f.holds ops m = true → m.truth x = b) :
    (.prop x, b) ∈ k.literals path := by
  have here : m.truth x = b := forced m (encodes.holds_iff_exists_path.mpr ⟨path, mem, holds⟩)
  rw [← here]
  apply encodes.mem_literals mem holds (n := m.withTruth x !b)
  · intro g leaf other
    rcases Formula.prop_or_isAtom_of_mem_leaves f leaf with ⟨y, rfl⟩ | atom
    · exact Function.update_of_ne (fun same => other (congrArg Formula.prop same)) _ _
    · cases g with
      | atom r s t => rfl
      | _ => simp [Formula.isAtom] at atom
  · by_contra satisfied
    have value := forced _ (Bool.of_not_eq_false satisfied)
    simp [Assignment.withTruth] at value

/-- A path that holds has all atoms in their order, if the formula would fail for every other value of
one of them. -/
theorem Encodes.literals_eq (encodes : k.Encodes f) {path : List Int}
    (mem : path ∈ k.diagram.paths k.root) (holds : k.Holds ops m path)
    (fails : ∀ a ∈ k.atoms, ∃ n : Assignment,
      (∀ b ∈ f.leaves, b ≠ a → b.holds ops n = b.holds ops m) ∧ f.holds ops n = false) :
    k.literals path = k.atoms.toList.map fun a => (a, a.holds ops m) := by
  have all : ∀ a ∈ k.atoms, (a, a.holds ops m) ∈ k.literals path := by
    intro a inside
    obtain ⟨n, same, fails⟩ := fails a inside
    exact encodes.mem_literals mem holds same fails
  have nonzero := Diagram.natAbs_ne_zero_of_mem_paths encodes.varsBelow mem
  obtain ⟨increasing, -⟩ :=
    Diagram.increasing_of_mem_paths encodes.faithful.valid.ordered encodes.varsBelow mem
  have places : path.map (fun lit => lit.natAbs - 1) = List.range k.atoms.size := by
    apply List.Pairwise.eq_of_mem_iff (r := (· < ·))
    · refine List.pairwise_map.mpr (increasing.imp_of_mem fun {x y} inX inY less => ?_)
      have := nonzero x inX
      omega
    · exact List.pairwise_lt_range
    · intro i
      rw [List.mem_map, List.mem_range]
      constructor
      · rintro ⟨lit, inside, rfl⟩
        obtain ⟨a, here, -⟩ := encodes.exists_atom mem lit inside
        exact (Array.getElem?_eq_some_iff.mp here).1
      · intro bound
        obtain ⟨lit, inside, found⟩ := List.mem_filterMap.mp (all _ (Array.getElem_mem bound))
        obtain ⟨a, here, same⟩ := Option.map_eq_some_iff.mp found
        obtain rfl : a = k.atoms[i] := congrArg Prod.fst same
        have place := idxOf?_of_getElem? encodes.faithful.nodup here
        rw [idxOf?_of_getElem? encodes.faithful.nodup (Array.getElem?_eq_getElem bound)] at place
        exact ⟨lit, inside, (Option.some.inj place).symm⟩
  have literals : k.literals path = (path.map fun lit => lit.natAbs - 1).filterMap fun i =>
      (k.atoms[i]?).map fun a => (a, a.holds ops m) := by
    rw [List.filterMap_map]
    refine List.filterMap_congr fun lit inside => ?_
    obtain ⟨a, here, -⟩ := encodes.exists_atom mem lit inside
    have value := holds (a, decide (0 < lit)) (List.mem_filterMap.mpr ⟨lit, inside, by rw [here]; rfl⟩)
    simp only [Function.comp, here, Option.map_some, value]
  rw [literals, places]
  simpa using filterMap_range_getElem? k.atoms.toList _

def assignment (k : Skeleton) (v : Valuation) : Assignment where
  number _ := 0
  truth x := ((k.atoms.idxOf? (.prop x)).map fun i => v (i + 1)).getD false

theorem Encodes.holds_assignment (encodes : k.Encodes f) {a : Formula} {i : Nat}
    (here : k.atoms[i]? = some a) (prop : ∃ x, a = .prop x) (v : Valuation) :
    a.holds ops (k.assignment v) = v (i + 1) := by
  obtain ⟨x, rfl⟩ := prop
  have found := idxOf?_of_getElem? encodes.faithful.nodup here
  simp [Formula.holds, assignment, found]

/-- Atoms that have every combination of truth values somewhere. -/
def Free (ops : Operators) (atoms : Array Formula) : Prop :=
  ∀ v : Valuation, ∃ m : Assignment, ∀ (i : Nat) (a : Formula), atoms[i]? = some a →
    a.holds ops m = v (i + 1)

theorem free_empty (ops : Operators) : Free ops #[] := fun _ => ⟨⟨fun _ => 0, fun _ => false⟩, nofun⟩

theorem free_singleton {a : Formula} (choice : Bool → Assignment)
    (values : ∀ b, a.holds ops (choice b) = b) : Free ops #[a] := by
  refine fun v => ⟨choice (v 1), fun i g here => ?_⟩
  obtain _ | i := i
  · cases here
    exact values _
  · cases here

theorem free_pair {a b : Formula} (choice : Bool → Bool → Assignment)
    (values : ∀ c d, a.holds ops (choice c d) = c ∧ b.holds ops (choice c d) = d) :
    Free ops #[a, b] := by
  refine fun v => ⟨choice (v 1) (v 2), fun i g here => ?_⟩
  obtain _ | _ | i := i
  · cases here
    exact (values _ _).1
  · cases here
    exact (values _ _).2
  · cases here

theorem free_triple {a b c : Formula} (choice : Bool → Bool → Bool → Assignment)
    (values : ∀ x y z, a.holds ops (choice x y z) = x ∧ b.holds ops (choice x y z) = y ∧
      c.holds ops (choice x y z) = z) : Free ops #[a, b, c] := by
  refine fun v => ⟨choice (v 1) (v 2) (v 3), fun i g here => ?_⟩
  obtain ⟨first, second, third⟩ := values (v 1) (v 2) (v 3)
  obtain _ | _ | _ | i := i
  · cases here
    exact first
  · cases here
    exact second
  · cases here
    exact third
  · cases here

/-- Where atoms may have any truth values, the literals of every path hold under an assignment. -/
theorem Encodes.exists_holds_of_free (encodes : k.Encodes f) (free : Free ops k.atoms)
    {path : List Int} (mem : path ∈ k.diagram.paths k.root) : ∃ m, k.Holds ops m path := by
  obtain ⟨v, satisfied⟩ :=
    Diagram.exists_satisfies encodes.faithful.valid.ordered encodes.varsBelow mem
  obtain ⟨m, values⟩ := free v
  refine ⟨m, (encodes.holds_iff mem).mpr fun lit inside => ?_⟩
  obtain ⟨a, here, value⟩ := encodes.exists_atom mem lit inside
  have nonzero := Diagram.natAbs_ne_zero_of_mem_paths encodes.varsBelow mem lit inside
  rw [Diagram.Satisfies, value, values _ a here, Nat.sub_add_cancel (Nat.pos_of_ne_zero nonzero)]
  exact satisfied lit inside

/-- If no two models of a formula differ in one atom alone, then every path has all atoms, with the values
that they have in a model. -/
theorem Encodes.literals_of_rigid (encodes : k.Encodes f) (free : Free ops k.atoms)
    (rigid : ∀ m n, f.holds ops m = true → f.holds ops n = true → ∀ a ∈ k.atoms,
      (∀ b ∈ k.atoms, b ≠ a → b.holds ops n = b.holds ops m) → a.holds ops n = a.holds ops m)
    {path : List Int} (mem : path ∈ k.diagram.paths k.root) : ∃ m, f.holds ops m = true ∧
      k.literals path = k.atoms.toList.map fun a => (a, a.holds ops m) := by
  obtain ⟨m, satisfied⟩ := encodes.exists_holds_of_free free mem
  have holds := encodes.holds_iff_exists_path.mpr ⟨path, mem, satisfied⟩
  refine ⟨m, holds, encodes.literals_eq mem satisfied fun a inside => ?_⟩
  -- The assignment under which only `a` has the other value is no model.
  obtain ⟨i, bound, rfl⟩ := Array.getElem_of_mem inside
  have here : k.atoms[i]? = some k.atoms[i] := Array.getElem?_eq_getElem bound
  obtain ⟨n, flipped⟩ := free
    (Function.update (SkeletonState.valuation ops m k.atoms) (i + 1) !(k.atoms[i].holds ops m))
  have changed : k.atoms[i].holds ops n = !(k.atoms[i].holds ops m) := by
    rw [flipped i _ here, Function.update_self]
  have others : ∀ b ∈ k.atoms, b ≠ k.atoms[i] → b.holds ops n = b.holds ops m := by
    intro b known other
    obtain ⟨j, boundJ, rfl⟩ := Array.getElem_of_mem known
    have there : k.atoms[j]? = some k.atoms[j] := Array.getElem?_eq_getElem boundJ
    have apart : j + 1 ≠ i + 1 := by
      rintro ⟨⟩
      exact other rfl
    rw [flipped j _ there, Function.update_of_ne apart]
    simp [SkeletonState.valuation, there]
  refine ⟨n, fun b leaf => others b (encodes.mem_atoms leaf), ?_⟩
  rw [Bool.eq_false_iff]
  intro model
  rw [rigid m n holds model _ inside others] at changed
  exact absurd changed (by simp)

def ofLiteral : Formula × Bool → Formula
  | (a, true) => a
  | (a, false) => a.negate

theorem holds_ofLiteral (l : Formula × Bool) :
    (ofLiteral l).holds ops m = true ↔ l.1.holds ops m = l.2 := by
  obtain ⟨a, b⟩ := l
  cases b with
  | true => exact Iff.rfl
  | false => rw [ofLiteral, Formula.holds_negate, Bool.not_eq_true']

theorem Encodes.exists_holds (encodes : k.Encodes f) (props : ∀ a ∈ k.atoms, ∃ x, a = .prop x)
    (ops : Operators) {path : List Int} (mem : path ∈ k.diagram.paths k.root) :
    ∃ m, k.Holds ops m path := by
  refine encodes.exists_holds_of_free (fun v => ⟨k.assignment v, fun i a here => ?_⟩) mem
  exact encodes.holds_assignment here (props a (Array.mem_of_getElem? here)) v

theorem Encodes.exists_model (encodes : k.Encodes f) (props : ∀ a ∈ k.atoms, ∃ x, a = .prop x)
    (ops : Operators) {path : List Int} (mem : path ∈ k.diagram.paths k.root) :
    ∃ m, f.holds ops m = true := by
  obtain ⟨m, holds⟩ := encodes.exists_holds props ops mem
  exact ⟨m, encodes.holds_iff_exists_path.mpr ⟨path, mem, holds⟩⟩

end Skeleton

end ProgramAnalysis
