import Mathlib.Data.Fintype.Card
import Mathlib.Tactic.Choose
import ProgramAnalysis.Proofs.Diagram.Enumeration
import ProgramAnalysis.Proofs.Diagram.Quantify

/-! References that stand for Boolean functions. By canonicity references are equal where the functions
are. An operation on references provides a reference for the function it makes of their functions, and
the only nodes it makes on the way are nodes of such results. -/
namespace ProgramAnalysis

namespace Diagram

open Checked (Ensures)
open ProgramAnalysis.Valuation (quantify)

/-- A reference and the function it stands for. -/
structure Denoted where
  ref : Ref
  function : Valuation → Bool

variable {d e : Diagram} {f g h : Denoted} {acc r : Ref} {v : Valuation} {m : Valuation → Bool}
  {S T : (Valuation → Bool) → Prop}

structure Denotes (d : Diagram) (f : Denoted) : Prop where
  has : d.Has f.ref
  eval : ∀ v, d.eval v f.ref = f.function v

namespace Denotes

theorem later (denotes : d.Denotes f) (valid : d.Valid) (grown : e.Extends d) : e.Denotes f := by
  constructor
  · exact grown.has denotes.has
  · intro v
    rw [grown.eval_valid valid denotes.has, denotes.eval]

theorem one (d : Diagram) : d.Denotes ⟨.one, fun _ => true⟩ := ⟨d.has_one, d.eval_one⟩

theorem zero (d : Diagram) : d.Denotes ⟨.zero, fun _ => false⟩ := ⟨d.has_zero, d.eval_zero⟩

theorem complementIf (denotes : d.Denotes f) (ordered : d.Ordered) (flag : Bool) :
    d.Denotes ⟨f.ref.complementIf flag, fun v => f.function v != flag⟩ := by
  constructor
  · exact has_complementIf.mpr denotes.has
  · intro v
    rw [ordered.eval_complementIf denotes.has, denotes.eval]

theorem neg (denotes : d.Denotes f) (ordered : d.Ordered) :
    d.Denotes ⟨-f.ref, fun v => !f.function v⟩ := by
  simpa [Ref.complementIf] using denotes.complementIf ordered true

theorem eq_iff (denotesF : d.Denotes f) (denotesG : d.Denotes g) (ordered : d.Ordered) :
    f.ref = g.ref ↔ f.function = g.function := by
  constructor
  · intro same
    funext v
    rw [← denotesF.eval, same, denotesG.eval]
  · intro same
    apply ordered.eq_of_eval denotesF.has denotesG.has
    intro v
    rw [denotesF.eval, same, denotesG.eval]

theorem update_of_lt (denotes : d.Denotes f) (valid : d.Valid) {x : Nat} (fresh : d.vars < x)
    (b : Bool) : f.function (Function.update v x b) = f.function v := by
  rw [← denotes.eval, ← denotes.eval]
  apply valid.eval_congr
  intro y le _
  exact Function.update_of_ne (Nat.ne_of_lt (Nat.lt_of_le_of_lt le fresh)) b v

end Denotes

/-- What an operation makes: nodes for functions in `S`, and a reference with its function. -/
structure Provides (S : (Valuation → Bool) → Prop) (d e : Diagram) (f : Denoted) : Prop
    extends d.Builds S e where
  denotes : e.Denotes f

namespace Provides

theorem after {d' : Diagram} (provides : d'.Provides S e f) (first : d.Builds S d') :
    d.Provides S e f := ⟨first.trans provides.toBuilds, provides.denotes⟩

theorem congr (provides : d.Provides S e ⟨r, m⟩) {m' : Valuation → Bool} (same : ∀ v, m v = m' v) :
    d.Provides S e ⟨r, m'⟩ :=
  ⟨provides.toBuilds, provides.denotes.has, fun v => (provides.denotes.eval v).trans (same v)⟩

theorem of_denotes (valid : d.Valid) (denotes : d.Denotes f) : d.Provides S d f :=
  ⟨.of_size valid (.refl d) (Nat.le_refl _), denotes⟩

end Provides

/-- What an operation provides after others is provided from the beginning. -/
theorem Builds.provides_after {d' : Diagram} {act : DiagramM Ref} (first : d.Builds S d')
    (rest : Ensures act d' (d'.Exhausts S) fun r e => d'.Provides S e ⟨r, m⟩) :
    Ensures act d' (d.Exhausts S) fun r e => d.Provides S e ⟨r, m⟩ :=
  rest.imp (fun _ _ provides => provides.after first) fun _ exhausts => exhausts.after first

/-! ### How many nodes -/

theorem Ordered.not_constant (ordered : d.Ordered) {i : Nat} (inside : i < d.nodes.size) (b : Bool) :
    ¬ ∀ v, d.eval v (.node (i + 2)) = b := by
  intro constant
  have has : d.Has (.node (i + 2)) := ⟨by simp, by simpa using inside⟩
  cases b with
  | false =>
    have same := ordered.eq_of_eval has d.has_zero fun v => by rw [constant, eval_zero]
    have index := congrArg Ref.index same
    simp [Ref.zero, Ref.one] at index
  | true =>
    have same := ordered.eq_of_eval has d.has_one fun v => by rw [constant, eval_one]
    have index := congrArg Ref.index same
    simp [Ref.one] at index

/-- Two nodes do not have one function up to complements. -/
theorem Ordered.eq_of_complementIf (ordered : d.Ordered) {i j : Nat} (insideI : i < d.nodes.size)
    (insideJ : j < d.nodes.size) {flag : Bool}
    (same : ∀ v, d.eval v (.node (i + 2)) = (d.eval v (.node (j + 2)) != flag)) : i = j := by
  have hasI : d.Has (.node (i + 2)) := ⟨by simp, by simpa using insideI⟩
  have hasJ : d.Has (.node (j + 2)) := ⟨by simp, by simpa using insideJ⟩
  have equal := ordered.eq_of_eval hasI (has_complementIf.mpr hasJ) fun v => by
    rw [same, ordered.eval_complementIf hasJ]
  have index := congrArg Ref.index equal
  simpa using index

/-- Every function in a list needs one node at most. -/
theorem Builds.size_le {functions : List (Valuation → Bool)} (builds : d.Builds S e)
    (few : ∀ k, S k → (∃ b, ∀ v, k v = b) ∨
      ∃ m ∈ functions, ∃ flag, ∀ v, k v = (m v != flag)) :
    e.nodes.size ≤ d.nodes.size + functions.length := by
  have ordered := builds.valid.ordered
  have place (i : Fin (e.nodes.size - d.nodes.size)) : ∃ (p : Fin functions.length) (flag : Bool),
      ∀ v, e.eval v (.node (d.nodes.size + i + 2)) = (functions[p] v != flag) := by
    have inside : d.nodes.size + i < e.nodes.size := by omega
    rcases few _ (builds.needed _ (Nat.le_add_right _ _) inside) with ⟨b, constant⟩ | ⟨m, mem, same⟩
    · exact (ordered.not_constant inside b constant).elim
    · obtain ⟨p, bound, rfl⟩ := List.getElem_of_mem mem
      exact ⟨⟨p, bound⟩, same⟩
  choose position flag same using place
  have injective : Function.Injective position := by
    intro i j equal
    have insideI : d.nodes.size + i < e.nodes.size := by omega
    have insideJ : d.nodes.size + j < e.nodes.size := by omega
    have both (v : Valuation) : e.eval v (.node (d.nodes.size + i + 2)) =
        (e.eval v (.node (d.nodes.size + j + 2)) != (flag i != flag j)) := by
      rw [same, same, equal]
      cases functions[position j] v <;> cases flag i <;> cases flag j <;> rfl
    have index := ordered.eq_of_complementIf insideI insideJ both
    apply Fin.ext
    omega
  have count := Fintype.card_le_of_injective position injective
  simp only [Fintype.card_fin] at count
  omega

theorem cofactor_var {x : Nat} {k : Valuation → Bool} (of : Cofactor (fun v => v x) k) :
    (∃ b, ∀ v, k v = b) ∨ ∃ m ∈ [fun v : Valuation => v x], ∃ flag, ∀ v, k v = (m v != flag) := by
  simp only [List.mem_singleton, exists_eq_left]
  induction of with
  | self => exact .inr ⟨false, fun v => by simp⟩
  | fix y b of ih =>
    rcases ih with ⟨c, constant⟩ | ⟨flag, same⟩
    · exact .inl ⟨c, fun v => constant _⟩
    · by_cases here : x = y
      · exact .inl ⟨b != flag, fun v => (same _).trans (by rw [here, Function.update_self])⟩
      · exact .inr ⟨flag, fun v => (same _).trans (by rw [Function.update_of_ne here])⟩
  | not of ih =>
    rcases ih with ⟨c, constant⟩ | ⟨flag, same⟩
    · exact .inl ⟨!c, fun v => congrArg Bool.not (constant v)⟩
    · exact .inr ⟨!flag, fun v => (congrArg Bool.not (same v)).trans (Bool.bne_not ..).symm⟩

/-! ### Nodes and if-then-else -/

theorem mkNode_provides {x : Nat} (valid : d.Valid) (nonzero : x ≠ 0) (denotesF : d.Denotes f)
    (denotesG : d.Denotes g) (belowF : x < d.level f.ref) (belowG : x < d.level g.ref)
    (same : ∀ v, (if v x then g.function v else f.function v) = m v)
    (needs : ∀ k, Cofactor m k → S k) :
    Ensures (mkNode x f.ref g.ref) d (d.Exhausts S) fun r e => d.Provides S e ⟨r, m⟩ := by
  have builds : d.Builds S d := .of_size valid (.refl d) (Nat.le_refl _)
  apply (mkNode_ensures valid nonzero denotesF.has denotesG.has belowF belowG).imp _
    fun _ full => ⟨full.1, d, builds, full.2⟩
  intro r e made
  have eval (v : Valuation) : e.eval v r = m v := by
    rw [made.eval, denotesF.eval, denotesG.eval, same]
  exact ⟨(made.builds eval).mono needs, made.has, eval⟩

theorem mkVar_provides {x : Nat} (valid : d.Valid) (nonzero : x ≠ 0) (small : x < bottomLevel)
    (needs : ∀ k, Cofactor (fun v => v x) k → S k) :
    Ensures (mkVar x) d (d.Exhausts S) fun r e => d.Provides S e ⟨r, fun v => v x⟩ := by
  have below (r : Ref) (index : r.index = 1) : x < d.level r := by
    simpa [level, node?_eq_none_of_index d (show r.index < 2 by omega)] using small
  apply mkNode_provides valid nonzero (.zero d) (.one d) (below _ rfl) (below _ rfl) _ needs
  intro v
  cases v x <;> simp

theorem ite_provides (valid : d.Valid) (denotesF : d.Denotes f) (denotesG : d.Denotes g)
    (denotesH : d.Denotes h) (same : ∀ v, (if f.function v then g.function v else h.function v) = m v)
    (needs : ∀ k, Cofactor m k → S k) :
    Ensures (ite f.ref g.ref h.ref) d (d.Exhausts S) fun r e => d.Provides S e ⟨r, m⟩ := by
  have meaning (v : Valuation) : d.select v f.ref g.ref h.ref = m v := by
    rw [select, denotesF.eval, denotesG.eval, denotesH.eval, same]
  apply (ite_builds valid denotesF.has denotesG.has denotesH.has fun k of =>
    needs k (by simpa only [meaning] using of)).mono
  rintro r e ⟨gives, builds⟩
  exact ⟨builds, gives.has, fun v => (gives.eval v).trans (meaning v)⟩

theorem and_provides (valid : d.Valid) (denotesF : d.Denotes f) (denotesG : d.Denotes g)
    (same : ∀ v, (f.function v && g.function v) = m v) (needs : ∀ k, Cofactor m k → S k) :
    Ensures (and f.ref g.ref) d (d.Exhausts S) fun r e => d.Provides S e ⟨r, m⟩ := by
  apply ite_provides valid denotesF denotesG (.zero d) _ needs
  intro v
  rw [← same]
  cases f.function v <;> rfl

theorem existsVar_provides {x : Nat} (valid : d.Valid) (denotes : d.Denotes f) (nonzero : x ≠ 0)
    (small : x < bottomLevel) (needs : ∀ k, Cofactor (quantify x f.function) k → S k) :
    Ensures (existsVar f.ref x) d (d.Exhausts S) fun r e =>
      d.Provides S e ⟨r, quantify x f.function⟩ := by
  have meaning : (d.eval · f.ref) = f.function := funext denotes.eval
  apply (existsVar_builds valid denotes.has nonzero small (meaning ▸ needs)).mono
  rintro r e ⟨gives, builds⟩
  exact ⟨builds, gives.has, fun v => meaning ▸ gives.eval v⟩

theorem implies_builds (valid : d.Valid) (denotesF : d.Denotes f) (denotesG : d.Denotes g) :
    Ensures (implies f.ref g.ref) d
      (d.Exhausts (Cofactor fun v => f.function v && !g.function v)) fun answer e =>
      d.Builds (Cofactor fun v => f.function v && !g.function v) e ∧
        (answer = true ↔ ∀ v, f.function v = true → g.function v = true) := by
  unfold implies
  rw [Checked.ensures_bind]
  apply (and_provides valid denotesF (denotesG.neg valid.ordered) (fun _ => rfl) fun _ => id).mono
  intro r e provides
  refine ⟨provides.toBuilds, ?_⟩
  rw [decide_eq_true_eq, provides.denotes.eq_iff (.zero e) provides.valid.ordered, funext_iff]
  apply forall_congr'
  intro v
  dsimp only
  cases f.function v <;> cases g.function v <;> decide

/-! ### Lists -/

def allOf (fs : List Denoted) (v : Valuation) : Bool := fs.all (·.function v)

theorem andAll_go_provides {done fs : List Denoted} (valid : d.Valid)
    (denotesDone : d.Denotes ⟨acc, allOf done⟩) (denotes : ∀ f ∈ fs, d.Denotes f)
    (needs : ∀ gs, gs <+: done ++ fs → ∀ k, Cofactor (allOf gs) k → S k) :
    Ensures (andAll.go acc (fs.map (·.ref))) d (d.Exhausts S) fun r e =>
      d.Provides S e ⟨r, allOf (done ++ fs)⟩ := by
  induction fs generalizing d acc done with
  | nil =>
    rw [List.append_nil]
    exact .of_denotes valid denotesDone
  | cons f fs ih =>
    obtain ⟨denotesF, rest⟩ := List.forall_mem_cons.mp denotes
    have whole : done ++ f :: fs = (done ++ [f]) ++ fs := by simp
    rw [whole] at needs ⊢
    rw [List.map_cons, andAll.go, Checked.ensures_bind]
    have both (v : Valuation) : (allOf done v && f.function v) = allOf (done ++ [f]) v := by
      simp [allOf]
    apply (and_provides valid denotesDone denotesF both (needs _ (List.prefix_append _ _))).mono
    intro r e provides
    split
    · -- A false conjunction stays false, whatever the rest is.
      rename_i false_
      subst false_
      refine ⟨provides.toBuilds, provides.denotes.has, fun v => ?_⟩
      have never : allOf (done ++ [f]) v = false :=
        (provides.denotes.eval v).symm.trans (eval_zero e v)
      have parts : allOf (done ++ [f] ++ fs) v = (allOf (done ++ [f]) v && allOf fs v) :=
        List.all_append
      simp only [eval_zero, parts, never, Bool.false_and]
    · exact provides.toBuilds.provides_after (ih provides.valid provides.denotes
        (fun g mem => (rest g mem).later valid provides.nodes) needs)

theorem existsAll_provides {done xs : List Nat} (valid : d.Valid)
    (denotes : d.Denotes ⟨acc, done.foldl (fun m x => quantify x m) m⟩)
    (inRange : ∀ x ∈ xs, x ≠ 0 ∧ x < bottomLevel)
    (needs : ∀ ys, ys <+: done ++ xs →
      ∀ k, Cofactor (ys.foldl (fun m x => quantify x m) m) k → S k) :
    Ensures (existsAll acc xs) d (d.Exhausts S) fun r e =>
      d.Provides S e ⟨r, (done ++ xs).foldl (fun m x => quantify x m) m⟩ := by
  unfold existsAll
  induction xs generalizing d acc done with
  | nil =>
    rw [List.append_nil]
    exact .of_denotes valid denotes
  | cons x xs ih =>
    obtain ⟨⟨nonzero, small⟩, rest⟩ := List.forall_mem_cons.mp inRange
    have whole : done ++ x :: xs = (done ++ [x]) ++ xs := by simp
    have next : (done ++ [x]).foldl (fun m x => quantify x m) m =
        quantify x (done.foldl (fun m x => quantify x m) m) := by simp
    rw [whole] at needs ⊢
    rw [List.foldlM_cons, Checked.ensures_bind]
    apply (existsVar_provides valid denotes nonzero small
      (next ▸ needs _ (List.prefix_append _ _))).mono
    intro r e provides
    exact provides.toBuilds.provides_after
      (ih provides.valid (next ▸ provides.denotes) rest needs)

/-- A signed number of a variable, as a 32-bit number. -/
def IsLiteral (l : Int) : Prop := l ≠ 0 ∧ -0x80000000 ≤ l ∧ l < 0x80000000

def cubeOf (literals : List Int) (v : Valuation) : Bool := literals.all fun l => decide (Satisfies v l)

theorem satisfies_iff_sign {l : Int} (nonzero : l ≠ 0) :
    decide (Satisfies v l) = (v l.natAbs != decide (l < 0)) := by
  rw [Bool.eq_iff_iff, decide_eq_true_iff, Satisfies]
  by_cases positive : 0 < l
  · have notNegative : ¬ l < 0 := by omega
    simp [positive, notNegative]
  · have negative : l < 0 := by omega
    simp [positive, negative]

theorem cofactor_cubeOf_singleton {l : Int} (nonzero : l ≠ 0) :
    Cofactor (cubeOf [l]) fun v => v l.natAbs := by
  have undone (v : Valuation) : v l.natAbs = (cubeOf [l] v != decide (l < 0)) := by
    simp [cubeOf, satisfies_iff_sign nonzero]
  simpa only [undone] using Cofactor.bne (decide (l < 0))

theorem cube_fold_provides {done ls : List Int} (valid : d.Valid)
    (denotes : d.Denotes ⟨acc, cubeOf done⟩) (literals : ∀ l ∈ ls, IsLiteral l)
    (needs : ∀ ks, ks ⊆ done ++ ls → ∀ k, Cofactor (cubeOf ks) k → S k) :
    Ensures (ls.foldlM (fun acc lit => do
      let x ← mkVar lit.natAbs
      and (x.complementIf (lit < 0)) acc) acc) d (d.Exhausts S) fun r e =>
      d.Provides S e ⟨r, cubeOf (done ++ ls)⟩ := by
  induction ls generalizing d acc done with
  | nil =>
    rw [List.append_nil]
    exact .of_denotes valid denotes
  | cons l ls ih =>
    obtain ⟨⟨nonzero, low, high⟩, rest⟩ := List.forall_mem_cons.mp literals
    have whole : done ++ l :: ls = (done ++ [l]) ++ ls := by simp
    rw [whole] at needs ⊢
    have small : l.natAbs < bottomLevel := by
      unfold bottomLevel
      omega
    have single : [l] ⊆ (done ++ [l]) ++ ls := by simp
    rw [List.foldlM_cons, Checked.ensures_bind, Checked.ensures_bind]
    apply (mkVar_provides valid (Int.natAbs_ne_zero.mpr nonzero) small fun k of =>
      needs _ single k ((cofactor_cubeOf_singleton nonzero).trans of)).mono
    intro x d₁ made
    have both (v : Valuation) :
        ((v l.natAbs != decide (l < 0)) && cubeOf done v) = cubeOf (done ++ [l]) v := by
      rw [← satisfies_iff_sign nonzero, Bool.and_comm]
      simp [cubeOf]
    apply (and_provides made.valid (made.denotes.complementIf made.valid.ordered _)
      (denotes.later valid made.nodes) both (needs _ (List.subset_append_left _ _))).imp
    · intro r d₂ provides
      have begun := made.toBuilds.trans provides.toBuilds
      exact begun.provides_after (ih provides.valid provides.denotes rest needs)
    · intro violation exhausts
      exact exhausts.after made.toBuilds

/-- To order two literals one takes their absolute values, and the least 32-bit number has none. -/
def CubeOverflows (literals : List Int) : Prop :=
  2 ≤ literals.length ∧ -0x80000000 ∈ literals

theorem cube_provides {literals : List Int} (valid : d.Valid) (all : ∀ l ∈ literals, IsLiteral l)
    (needs : ∀ ls, ls ⊆ literals → ∀ k, Cofactor (cubeOf ls) k → S k) :
    Ensures (cube literals) d (fun violation => d.Exhausts S violation ∨
      violation = .outOfRange ∧ CubeOverflows literals) fun r e =>
        d.Provides S e ⟨r, cubeOf literals⟩ := by
  unfold cube
  split
  · rename_i overflows
    exact .inr ⟨rfl, overflows.1, List.contains_iff_mem.mp overflows.2⟩
  · have sorted : ∀ l ∈ literals.mergeSort (fun a b => b.natAbs ≤ a.natAbs), l ∈ literals :=
      fun l mem => List.mem_mergeSort.mp mem
    have empty : d.Denotes ⟨.one, cubeOf []⟩ := .one d
    apply (cube_fold_provides valid empty (fun l mem => all l (sorted l mem)) fun ks subset =>
      needs ks fun l mem => sorted l (subset mem)).imp
    · intro r e provides
      apply provides.congr
      intro v
      rw [Bool.eq_iff_iff, List.nil_append]
      simp [cubeOf, List.mem_mergeSort]
    · exact fun _ => .inl

end Diagram

end ProgramAnalysis
