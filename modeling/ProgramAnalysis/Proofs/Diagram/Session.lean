import ProgramAnalysis.Proofs.Diagram.Room

/-! Sequences of operations on one diagram. Every reference that was returned so far is kept with the
function that its operation stands for, made of the functions of the operands; it denotes this function
ever after. -/
namespace ProgramAnalysis

namespace Diagram

open Checked (Ensures)
open ProgramAnalysis.Valuation (quantify)

variable {d e : Diagram} {r : Ref}

/-- The operations that return a reference. -/
inductive Command where
  | mkVar (x : Nat)
  | mkNode (x : Nat) (f g : Denoted)
  | not (f : Denoted)
  | and (f g : Denoted)
  | or (f g : Denoted)
  | xor (f g : Denoted)
  | iff (f g : Denoted)
  | ite (f g h : Denoted)
  | andAll (fs : List Denoted)
  | cube (literals : List Int)
  | existsVar (f : Denoted) (x : Nat)
  | existsAll (f : Denoted) (xs : List Nat)
  | low (f : Denoted)
  | high (f : Denoted)

namespace Command

def operands : Command → List Denoted
  | .mkVar _ | .cube _ => []
  | .not f | .existsVar f _ | .existsAll f _ | .low f | .high f => [f]
  | .mkNode _ f g | .and f g | .or f g | .xor f g | .iff f g => [f, g]
  | .ite f g h => [f, g, h]
  | .andAll fs => fs

def run : Command → DiagramM Ref
  | .mkVar x => Diagram.mkVar x
  | .mkNode x f g => Diagram.mkNode x f.ref g.ref
  | .not f => return -f.ref
  | .and f g => Diagram.and f.ref g.ref
  | .or f g => Diagram.or f.ref g.ref
  | .xor f g => Diagram.xor f.ref g.ref
  | .iff f g => Diagram.iff f.ref g.ref
  | .ite f g h => Diagram.ite f.ref g.ref h.ref
  | .andAll fs => Diagram.andAll (fs.map (·.ref))
  | .cube literals => Diagram.cube literals
  | .existsVar f x => Diagram.existsVar f.ref x
  | .existsAll f xs => Diagram.existsAll f.ref xs
  | .low f => do return (← get).low f.ref
  | .high f => do return (← get).high f.ref

/-- The function an operation stands for. The children of a node are the cofactors at the variable that
the node tests. -/
def function (d : Diagram) : Command → Valuation → Bool
  | .mkVar x => fun v => v x
  | .mkNode x f g => fun v => if v x then g.function v else f.function v
  | .not f => fun v => !f.function v
  | .and f g => fun v => f.function v && g.function v
  | .or f g => fun v => f.function v || g.function v
  | .xor f g => fun v => f.function v != g.function v
  | .iff f g => fun v => f.function v == g.function v
  | .ite f g h => fun v => (f.function v && g.function v) || (!f.function v && h.function v)
  | .andAll fs => allOf fs
  | .cube literals => cubeOf literals
  | .existsVar f x => quantify x f.function
  | .existsAll f xs => xs.foldl (fun m x => quantify x m) f.function
  | .low f => fun v => f.function (Function.update v (d.var f.ref) false)
  | .high f => fun v => f.function (Function.update v (d.var f.ref) true)

/-- Variables are numbered from 1, and a node tests its variable before those of its children. -/
def InRange (d : Diagram) : Command → Prop
  | .mkVar x | .existsVar _ x => x ≠ 0 ∧ x < bottomLevel
  | .mkNode x f g => x ≠ 0 ∧ x < d.level f.ref ∧ x < d.level g.ref
  | .existsAll _ xs => ∀ x ∈ xs, x ≠ 0 ∧ x < bottomLevel
  | .cube literals => ∀ l ∈ literals, IsLiteral l
  | _ => True

/-- The functions that need nodes: those of the result, and of the results on the way to it. -/
def Needs (d : Diagram) : Command → (Valuation → Bool) → Prop
  | .andAll fs => fun k => ∃ gs, gs <+: fs ∧ Cofactor (allOf gs) k
  | .cube literals => fun k => ∃ ls, ls ⊆ literals ∧ Cofactor (cubeOf ls) k
  | .existsAll f xs => fun k =>
    ∃ ys, ys <+: xs ∧ Cofactor (ys.foldl (fun m x => quantify x m) f.function) k
  | c => Cofactor (c.function d)

/-- The contracts that an operation can break: the nodes it needs are too many, or literals cannot be
ordered. -/
def Breaks (d : Diagram) (c : Command) (violation : Violation) : Prop :=
  d.Exhausts (c.Needs d) violation ∨
    violation = .outOfRange ∧ ∃ literals, c = .cube literals ∧ CubeOverflows literals

variable {c : Command}

/-- Every operation provides a reference that denotes its function. -/
theorem run_provides (valid : d.Valid) (denotes : ∀ f ∈ c.operands, d.Denotes f)
    (inRange : c.InRange d) :
    Ensures c.run d (c.Breaks d) fun r e => d.Provides (c.Needs d) e ⟨r, c.function d⟩ := by
  have ordered := valid.ordered
  have exhausted (violation : Violation) (h : d.Exhausts (c.Needs d) violation) :
      c.Breaks d violation := .inl h
  -- An operation that takes one step needs nodes for the cofactors of its result only.
  have needs (k : Valuation → Bool) (of : Cofactor (c.function d) k) :
      Cofactor (c.function d) k := of
  cases c with
  | mkVar x =>
    exact (mkVar_provides valid inRange.1 inRange.2 needs).weaken exhausted
  | mkNode x f g =>
    exact (mkNode_provides valid inRange.1 (denotes f (by simp [operands]))
      (denotes g (by simp [operands])) inRange.2.1 inRange.2.2 (fun _ => rfl) needs).weaken exhausted
  | not f =>
    have denotesF := denotes f (by simp [operands])
    exact .of_denotes valid (denotesF.neg ordered)
  | and f g =>
    exact (and_provides valid (denotes f (by simp [operands])) (denotes g (by simp [operands]))
      (fun _ => rfl) needs).weaken exhausted
  | or f g =>
    apply (ite_provides valid (denotes f (by simp [operands])) (.one d)
      (denotes g (by simp [operands])) _ needs).weaken exhausted
    intro v
    simp only [function]
    cases f.function v <;> simp
  | xor f g =>
    have denotesG := denotes g (by simp [operands])
    apply (ite_provides valid (denotes f (by simp [operands])) (denotesG.neg ordered) denotesG _
      needs).weaken exhausted
    intro v
    simp only [function]
    cases f.function v <;> simp
  | iff f g =>
    have denotesG := denotes g (by simp [operands])
    apply (ite_provides valid (denotes f (by simp [operands])) denotesG (denotesG.neg ordered) _
      needs).weaken exhausted
    intro v
    simp only [function]
    cases f.function v <;> simp
  | ite f g h =>
    apply (ite_provides valid (denotes f (by simp [operands])) (denotes g (by simp [operands]))
      (denotes h (by simp [operands])) _ needs).weaken exhausted
    intro v
    simp only [function]
    cases f.function v <;> simp
  | andAll fs =>
    have empty : d.Denotes ⟨.one, allOf []⟩ := .one d
    exact (andAll_go_provides valid empty denotes fun gs before k of => ⟨gs, before, of⟩).weaken exhausted
  | cube literals =>
    apply (cube_provides valid inRange fun ls subset k of => ⟨ls, subset, of⟩).weaken
    rintro violation (full | ⟨range, overflows⟩)
    · exact exhausted violation full
    · exact .inr ⟨range, literals, rfl, overflows⟩
  | existsVar f x =>
    exact (existsVar_provides valid (denotes f (by simp [operands])) inRange.1 inRange.2
      needs).weaken exhausted
  | existsAll f xs =>
    have start : d.Denotes ⟨f.ref, [].foldl (fun m x => quantify x m) f.function⟩ :=
      denotes f (by simp [operands])
    exact (existsAll_provides valid start inRange fun ys before k of => ⟨ys, before, of⟩).weaken exhausted
  | low f =>
    have denotesF := denotes f (by simp [operands])
    apply Provides.of_denotes valid
    exact ⟨ordered.low_known denotesF.has, fun v => by rw [ordered.eval_low, denotesF.eval]; rfl⟩
  | high f =>
    have denotesF := denotes f (by simp [operands])
    apply Provides.of_denotes valid
    exact ⟨ordered.high_known denotesF.has, fun v => by rw [ordered.eval_high, denotesF.eval]; rfl⟩

end Command

/-! ### Sequences -/

variable {bits : Nat} {known : List Denoted} {c : Command}

/-- The operands were returned before, and the variables are in range. -/
structure Command.Allowed (d : Diagram) (known : List Denoted) (c : Command) : Prop where
  operands : ∀ f ∈ c.operands, f ∈ known
  inRange : c.InRange d

theorem Command.Allowed.provides (allowed : c.Allowed d known) (valid : d.Valid)
    (denotes : ∀ f ∈ known, d.Denotes f) :
    Ensures c.run d (c.Breaks d) fun r e => d.Provides (c.Needs d) e ⟨r, c.function d⟩ :=
  Command.run_provides valid (fun f mem => denotes f (allowed.operands f mem)) allowed.inRange

/-- A diagram after a sequence of operations, with all references that were returned. -/
inductive Session (bits : Nat) : Diagram → List Denoted → Prop
  | start {d : Diagram} (made : ofBits bits = .ok d) :
      Session bits d [⟨.one, fun _ => true⟩, ⟨.zero, fun _ => false⟩]
  | newVar {d e : Diagram} {known : List Denoted} {x : Nat} (before : Session bits d known)
      (small : d.vars + 1 < bottomLevel) (run : Diagram.newVar d = .ok (x, e)) :
      Session bits e known
  | implies {d e : Diagram} {known : List Denoted} {f g : Denoted} {answer : Bool}
      (before : Session bits d known) (memF : f ∈ known) (memG : g ∈ known)
      (run : Diagram.implies f.ref g.ref d = .ok (answer, e)) : Session bits e known
  | command {d e : Diagram} {known : List Denoted} {c : Command} {r : Ref}
      (before : Session bits d known) (allowed : c.Allowed d known) (run : c.run d = .ok (r, e)) :
      Session bits e (⟨r, c.function d⟩ :: known)

theorem Session.denotes (session : Session bits d known) :
    d.Valid ∧ ∀ f ∈ known, d.Denotes f := by
  induction session with
  | start made =>
    constructor
    · exact (ofBits_valid made).1
    · intro f mem
      rcases List.mem_cons.mp mem with rfl | mem
      · exact .one _
      · obtain rfl := List.mem_singleton.mp mem
        exact .zero _
  | newVar before small run ih =>
    obtain ⟨valid, denotes⟩ := ih
    obtain ⟨-, rfl⟩ := (newVar_ensures _).of_ok run
    constructor
    · exact valid.withVars (Nat.le_succ _)
    · intro f mem
      exact (denotes f mem).later valid fun _ _ h => h
  | implies before memF memG run ih =>
    obtain ⟨valid, denotes⟩ := ih
    obtain ⟨builds, -⟩ := (implies_builds valid (denotes _ memF) (denotes _ memG)).of_ok run
    constructor
    · exact builds.valid
    · intro f mem
      exact (denotes f mem).later valid builds.nodes
  | command before allowed run ih =>
    obtain ⟨valid, denotes⟩ := ih
    have provides := (allowed.provides valid denotes).of_ok run
    constructor
    · exact provides.valid
    · intro f mem
      rcases List.mem_cons.mp mem with rfl | mem
      · exact provides.denotes
      · exact (denotes f mem).later valid provides.nodes

/-- For every size of the computed table and after every sequence of operations, all references denote
their functions, and they are equal exactly if their functions are. The next operation returns a
reference that denotes its function, and all earlier ones keep theirs. It can end otherwise only if the
nodes that its function needs are too many, or if it has to order literals of which one has no absolute
value. -/
theorem Session.canonical (small : bits ≤ 31) : (∃ d, ofBits bits = .ok d) ∧
    ∀ d known, Session bits d known →
      (∀ f ∈ known, ∀ v, d.eval v f.ref = f.function v) ∧
      (∀ f ∈ known, ∀ g ∈ known, f.ref = g.ref ↔ f.function = g.function) ∧
      (∀ c : Command, c.Allowed d known → Ensures c.run d (c.Breaks d) fun r e =>
        (∀ v, e.eval v r = c.function d v) ∧ ∀ f ∈ known, ∀ v, e.eval v f.ref = f.function v) ∧
      (∀ f ∈ known, ∀ g ∈ known, Ensures (Diagram.implies f.ref g.ref) d
        (d.Exhausts (Cofactor fun v => f.function v && !g.function v)) fun answer e =>
          (answer = true ↔ ∀ v, f.function v = true → g.function v = true) ∧
            ∀ h ∈ known, ∀ v, e.eval v h.ref = h.function v) ∧
      (d.vars + 1 < bottomLevel → Ensures Diagram.newVar d (fun _ => False) fun x e =>
        (∀ f ∈ known, ∀ v b, f.function (Function.update v x b) = f.function v) ∧
          ∀ f ∈ known, ∀ v, e.eval v f.ref = f.function v) := by
  constructor
  · exact ofBits_ok small
  intro d known session
  obtain ⟨valid, denotes⟩ := session.denotes
  have later {e : Diagram} (grown : e.Extends d) (f : Denoted) (mem : f ∈ known) (v : Valuation) :
      e.eval v f.ref = f.function v := ((denotes f mem).later valid grown).eval v
  refine ⟨fun f mem => (denotes f mem).eval, ?_, ?_, ?_, ?_⟩
  · intro f memF g memG
    exact (denotes f memF).eq_iff (denotes g memG) valid.ordered
  · intro c allowed
    apply (allowed.provides valid denotes).mono
    intro r e provides
    exact ⟨provides.denotes.eval, later provides.nodes⟩
  · intro f memF g memG
    apply (implies_builds valid (denotes f memF) (denotes g memG)).mono
    rintro answer e ⟨builds, decides⟩
    exact ⟨decides, later builds.nodes⟩
  · intro room
    apply (newVar_ensures d).imp
    · rintro x e ⟨rfl, rfl⟩
      constructor
      · intro f mem v b
        exact (denotes f mem).update_of_lt valid (Nat.lt_succ_self _) b
      · exact later fun _ _ h => h
    · rintro violation ⟨-, full⟩
      unfold bottomLevel at room
      omega

variable {xs : Finset Nat}

/-- An operation whose functions depend on two variables returns, if there are not many nodes. -/
theorem Session.exists_command (session : Session bits d known) (allowed : c.Allowed d known)
    (two : xs.card ≤ 2) (only : ∀ k, c.Needs d k → OnlyOn xs k) (orderly : ∀ literals,
      c = .cube literals → ¬ CubeOverflows literals) (few : d.nodes.size ≤ 100) :
    ∃ r e, Session bits e (⟨r, c.function d⟩ :: known) ∧ e.nodes.size ≤ d.nodes.size + 16 := by
  obtain ⟨valid, denotes⟩ := session.denotes
  have sixteen : 2 ^ 2 ^ xs.card ≤ 2 ^ 2 ^ 2 :=
    Nat.pow_le_pow_right (by decide) (Nat.pow_le_pow_right (by decide) two)
  have returns : Ensures c.run d (fun _ => False) fun r e =>
      d.Provides (c.Needs d) e ⟨r, c.function d⟩ := by
    apply (allowed.provides valid denotes).weaken
    rintro violation (exhausts | ⟨-, literals, cube, overflows⟩)
    · exact not_exhausts_of_onlyOn only (by omega) exhausts
    · exact orderly literals cube overflows
  obtain ⟨r, e, run, provides⟩ := returns.exists_run
  have size := provides.toBuilds.size_le_of_onlyOn only
  exact ⟨r, e, session.command allowed run, by omega⟩

theorem cubeOf_onlyOn {literals : List Int} (inside : ∀ l ∈ literals, l.natAbs ∈ xs) :
    OnlyOn xs (cubeOf literals) := by
  intro v w same
  rw [Bool.eq_iff_iff, cubeOf, cubeOf, List.all_eq_true, List.all_eq_true]
  simp only [decide_eq_true_iff]
  refine forall₂_congr fun l mem => ?_
  rw [Satisfies, Satisfies, same _ (inside l mem)]

/-- The conjunction of two variables as an if-then-else and as a cube, and the cube without its first
variable. -/
theorem Session.canonical_conjunction : ∃ (d : Diagram) (x y f g h : Ref),
    Session 16 d [⟨h, quantify 1 (cubeOf [1, 2])⟩, ⟨g, cubeOf [1, 2]⟩,
      ⟨f, fun v => (v 1 && v 2) || (!v 1 && false)⟩, ⟨y, fun v => v 2⟩, ⟨x, fun v => v 1⟩,
      ⟨.one, fun _ => true⟩, ⟨.zero, fun _ => false⟩] ∧
    (∀ v, d.eval v f = (v 1 && v 2)) ∧ f = g ∧ h = y ∧ h ≠ x := by
  have small : 16 ≤ 31 := by decide
  obtain ⟨d₀, made⟩ := (Session.canonical small).1
  obtain ⟨-, nodes, -⟩ := ofBits_valid made
  have empty : d₀.nodes.size = 0 := by simp [nodes]
  let pair : Finset Nat := {1, 2}
  have two : pair.card ≤ 2 := by decide
  have var {x : Nat} (inside : x ∈ pair) : OnlyOn pair fun v => v x := fun v w same => same x inside
  have choice : OnlyOn pair fun v => (v 1 && v 2) || (!v 1 && false) := by
    intro v w same
    simp only [same 1 (by decide), same 2 (by decide)]
  have cube (ls : List Int) (subset : ls ⊆ [1, 2]) : OnlyOn pair (cubeOf ls) :=
    cubeOf_onlyOn fun l mem => (show ∀ l ∈ [(1 : Int), 2], l.natAbs ∈ pair by decide) l (subset mem)
  obtain ⟨x, d₁, first, size₁⟩ := (Session.start made).exists_command (c := .mkVar 1)
    ⟨List.forall_mem_nil _, by decide, by decide⟩ two (fun _ => (var (by decide)).cofactor) nofun
    (by omega)
  obtain ⟨y, d₂, second, size₂⟩ := first.exists_command (c := .mkVar 2)
    ⟨List.forall_mem_nil _, by decide, by decide⟩ two (fun _ => (var (by decide)).cofactor) nofun
    (by omega)
  obtain ⟨f, d₃, third, size₃⟩ := second.exists_command
    (c := .ite ⟨x, fun v => v 1⟩ ⟨y, fun v => v 2⟩ ⟨.zero, fun _ => false⟩)
    ⟨by simp [Command.operands, Command.function], trivial⟩ two (fun _ => choice.cofactor) nofun
    (by omega)
  obtain ⟨g, d₄, fourth, size₄⟩ := third.exists_command (c := .cube [1, 2])
    ⟨List.forall_mem_nil _, by simp [Command.InRange, IsLiteral]⟩ two
    (fun _ ⟨ls, subset, of⟩ => (cube ls subset).cofactor of)
    (fun _ same => by cases same; simp [CubeOverflows]) (by omega)
  obtain ⟨h, d₅, fifth, -⟩ := fourth.exists_command (c := .existsVar ⟨g, cubeOf [1, 2]⟩ 1)
    ⟨by simp [Command.operands, Command.function], by decide, by decide⟩ two
    (fun _ => ((cube [1, 2] (List.Subset.refl _)).quantify 1).cofactor) nofun (by omega)
  have session : Session 16 d₅ [⟨h, quantify 1 (cubeOf [1, 2])⟩, ⟨g, cubeOf [1, 2]⟩,
      ⟨f, fun v => (v 1 && v 2) || (!v 1 && false)⟩, ⟨y, fun v => v 2⟩, ⟨x, fun v => v 1⟩,
      ⟨.one, fun _ => true⟩, ⟨.zero, fun _ => false⟩] := fifth
  obtain ⟨means, canonical, -⟩ := (Session.canonical small).2 _ _ session
  simp only [List.forall_mem_cons] at means canonical
  obtain ⟨-, -, meansF, -⟩ := means
  obtain ⟨⟨-, -, -, byY, byX, -⟩, -, ⟨-, byG, -⟩, -⟩ := canonical
  have both (v : Valuation) : cubeOf [1, 2] v = (v 1 && v 2) := by
    simp [cubeOf, Satisfies]
  refine ⟨d₅, x, y, f, g, h, session, fun v => by simp [meansF], byG.mpr ?_, byY.mpr ?_,
    fun same => ?_⟩
  · funext v
    simp [both]
  · funext v
    simp [quantify, both]
  · have value := congrFun (byX.mp same) fun x => x == 1
    simp [quantify, both] at value

end Diagram

end ProgramAnalysis
