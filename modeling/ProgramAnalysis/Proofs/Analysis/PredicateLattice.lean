import ProgramAnalysis.Analysis.Peers
import ProgramAnalysis.Proofs.Abstraction.Abstractor
import ProgramAnalysis.Proofs.Analysis.Lattice
import ProgramAnalysis.Proofs.Region

/-! The order of predicate states. Boundaries are ordered by their regions, states inside a block only by
equality, and every state is below one that says nothing. It is an order with a bottom and a top, but the
join of two paths of one block is a third path, which is not above them. -/
namespace ProgramAnalysis

open Attempt (Ensures)
open Ambient (returns_pure)
open Diagram (Cofactor OnlyOn)

theorem Abstractor.Grows.trans_of_valid {a b c : Abstractor} (first : a.registry.Valid → a.Grows b)
    (second : b.registry.Valid → b.Grows c) (valid : a.registry.Valid) : a.Grows c :=
  (first valid).trans (second (valid.grows (first valid).registry))

/-- The state of abstractions, of which only the registry counts, with nodes for `S` since `d₀`. -/
def Abstractor.registered (d₀ : Diagram) (S : (Valuation → Bool) → Prop) : Ambient Abstractor where
  valid a := a.registry.Valid ∧ d₀.Builds S a.registry.diagram
  grows a b := a.registry.Valid → a.Grows b
  grows_refl _ valid := .refl valid
  grows_trans := Grows.trans_of_valid

namespace PredicateState

variable {a b : Abstractor} {d d₀ : Diagram} {s t u : PredicateState} {S : (Valuation → Bool) → Prop}

/-- The region of the abstraction is one of the registry. -/
structure Known (a : Abstractor) (s : PredicateState) : Prop where
  registry : a.registry.Valid
  has : ∀ r p, s.parts? = some (r, p) → a.registry.diagram.Has r.region.ref

theorem Known.grows (known : s.Known a) (grown : a.Grows b) : s.Known b :=
  ⟨known.registry.grows grown.registry, fun r p parts =>
    grown.registry.diagram.has (known.has r p parts)⟩

theorem known_top (valid : a.registry.Valid) : top.Known a := by
  refine ⟨valid, ?_⟩
  rintro _ _ ⟨⟩
  exact Diagram.has_one _

/-- What the test of states decides. -/
inductive Below (d : Diagram) : PredicateState → PredicateState → Prop
  | bottom (t : PredicateState) : Below d .bottom t
  | top (s : PredicateState) {t : PredicateState} (always : t.isTop = true) : Below d s t
  | boundary {r r' : Abstraction} (p p' : PathFormula)
      (contained : ∀ v, d.eval v r.region.ref = true → d.eval v r'.region.ref = true) :
      Below d (.boundary r p) (.boundary r' p')
  | inside {r r' : Abstraction} (p : PathFormula) (region : r.region = r'.region)
      (block : r.block = r'.block) : Below d (.inside r p) (.inside r' p)

namespace Below

theorem refl (d : Diagram) (s : PredicateState) : Below d s s := by
  cases s with
  | bottom => exact .bottom _
  | boundary r p => exact .boundary p p fun _ => id
  | inside r p => exact .inside p rfl rfl

theorem isTop (below : Below d s t) (always : s.isTop = true) : t.isTop = true := by
  cases below with
  | bottom => cases always
  | top _ always' => exact always'
  | boundary => cases always
  | inside p region => rwa [PredicateState.isTop, Abstraction.isTrue, ← region]

theorem trans (first : Below d s t) (second : Below d t u) : Below d s u := by
  cases first with
  | bottom => exact .bottom u
  | top _ always => exact .top s (second.isTop always)
  | boundary p _ contained =>
    cases second with
    | top _ always => exact .top _ always
    | boundary _ p' contained' =>
      exact .boundary p p' fun v holds => contained' v (contained v holds)
  | inside p region block =>
    cases second with
    | top _ always => exact .top _ always
    | inside _ region' block' => exact .inside p (region.trans region') (block.trans block')

theorem congr {e : Diagram} (below : Below d s t)
    (same : ∀ r p, s.parts? = some (r, p) → ∀ v, e.eval v r.region.ref = d.eval v r.region.ref)
    (same' : ∀ r p, t.parts? = some (r, p) → ∀ v, e.eval v r.region.ref = d.eval v r.region.ref) :
    Below e s t := by
  cases below with
  | bottom => exact .bottom t
  | top _ always => exact .top s always
  | @boundary r r' p p' contained =>
    refine .boundary p p' fun v holds => ?_
    rw [same' r' p' rfl]
    exact contained v (same r p rfl v ▸ holds)
  | inside p region block => exact .inside p region block

theorem iff_of_grows (knownS : s.Known a) (knownT : t.Known a) (grown : a.Grows b) :
    Below b.registry.diagram s t ↔ Below a.registry.diagram s t := by
  have same {u : PredicateState} (known : u.Known a) (r : Abstraction) (p : PathFormula)
      (parts : u.parts? = some (r, p)) (v : Valuation) :
      b.registry.diagram.eval v r.region.ref = a.registry.diagram.eval v r.region.ref :=
    grown.registry.diagram.nodes.eval_valid known.registry.diagram (known.has r p parts) v
  constructor
  · intro below
    exact below.congr (fun r p parts v => (same knownS r p parts v).symm)
      fun r p parts v => (same knownT r p parts v).symm
  · exact fun below => below.congr (same knownS) (same knownT)

theorem boundary_iff {r r' : Abstraction} {p p' : PathFormula} :
    Below d (.boundary r p) (.boundary r' p') ↔
      ∀ v, d.eval v r.region.ref = true → d.eval v r'.region.ref = true := by
  constructor
  · rintro ⟨⟩
    · contradiction
    · assumption
  · exact .boundary p p'

theorem inside_iff {r r' : Abstraction} {p p' : PathFormula} :
    Below d (.inside r p) (.inside r' p') ↔ (PredicateState.inside r' p').isTop = true ∨
      (r == r') = true ∧ p = p' := by
  rw [show (r == r') = true ↔ r.region = r'.region ∧ r.block = r'.block from decide_eq_true_iff]
  constructor
  · rintro ⟨⟩
    · exact .inl ‹_›
    · exact .inr ⟨⟨‹_›, ‹_›⟩, rfl⟩
  · rintro (always | ⟨⟨region, block⟩, rfl⟩)
    · exact .top _ always
    · exact .inside p region block

end Below

/-- A comparison of two boundaries needs nodes for what would contradict it, the others need none. -/
def OrderNeeds (d : Diagram) (pairs : List (PredicateState × PredicateState))
    (k : Valuation → Bool) : Prop :=
  ∃ r p r' p', (.boundary r p, .boundary r' p') ∈ pairs ∧
    Cofactor (fun v => d.eval v r.region.ref && !d.eval v r'.region.ref) k

theorem OrderNeeds.of_grows {k : Valuation → Bool} (needs : OrderNeeds b.registry.diagram [(s, t)] k)
    (knownS : s.Known a) (knownT : t.Known a) (grown : a.Grows b) :
    OrderNeeds a.registry.diagram [(s, t)] k := by
  obtain ⟨r, p, r', p', mem, of⟩ := needs
  obtain ⟨rfl, rfl⟩ := Prod.mk.injEq .. ▸ List.mem_singleton.mp mem
  have nodes := grown.registry.diagram.nodes
  have valid := knownS.registry.diagram
  simp only [nodes.eval_valid valid (knownS.has r p rfl),
    nodes.eval_valid valid (knownT.has r' p' rfl)] at of
  exact ⟨r, p, r', p', mem, of⟩

theorem OrderNeeds.onlyOn {pairs : List (PredicateState × PredicateState)} {vars : Finset Nat}
    {k : Valuation → Bool} (needs : OrderNeeds d pairs k) (only : ∀ r, OnlyOn vars (d.eval · r)) :
    OnlyOn vars k := by
  obtain ⟨r, -, r', -, -, of⟩ := needs
  apply OnlyOn.cofactor _ of
  intro v w same
  exact congrArg₂ (· && !·) (only r.region.ref v w same) (only r'.region.ref v w same)

theorem le_returns (knownS : s.Known a) (knownT : t.Known a) (begun : d₀.Builds S a.registry.diagram)
    (needs : ∀ k, OrderNeeds a.registry.diagram [(s, t)] k → S k) :
    (Abstractor.registered d₀ S).Returns (d₀.Exhausts S) (s.le t) a fun answer _ =>
      answer = true ↔ Below a.registry.diagram s t := by
  have valid := knownS.registry
  have here : (Abstractor.registered d₀ S).valid a := ⟨valid, begun⟩
  cases s with
  | bottom => exact returns_pure here ⟨fun _ => .bottom t, fun _ => rfl⟩
  | boundary r p =>
    cases t with
    | bottom => exact returns_pure here ⟨nofun, nofun⟩
    | boundary r' p' =>
      rw [Below.boundary_iff]
      show Ensures (Abstractor.covers r r') a _ _ _
      unfold Abstractor.covers
      rw [Abstractor.regionsOnly_ensures]
      apply (Region.entails_ensures begun (knownS.has r p rfl) (knownT.has r' p' rfl) fun k of =>
        needs k ⟨r, p, r', p', List.mem_singleton_self _, of⟩).mono
      rintro answer d ⟨⟨grown, entails⟩, builds⟩
      have whole := Abstractor.grows_withDiagram grown
      exact ⟨⟨valid.grows whole.registry, builds⟩, fun _ => whole, entails⟩
    | inside r' p' =>
      simp only [le]
      split
      · exact returns_pure here ⟨fun _ => .top _ ‹_›, fun _ => rfl⟩
      · refine returns_pure here ⟨nofun, ?_⟩
        rintro ⟨⟩
        contradiction
  | inside r p =>
    cases t with
    | bottom => exact returns_pure here ⟨nofun, nofun⟩
    | boundary r' p' => exact returns_pure here ⟨nofun, nofun⟩
    | inside r' p' =>
      simp only [le, Below.inside_iff]
      split
      · rename_i always
        exact returns_pure here ⟨fun _ => .inl always, fun _ => rfl⟩
      · rename_i never
        refine returns_pure here ?_
        simp [never]

theorem le_decides (knownS : s.Known a) (knownT : t.Known a)
    (needs : ∀ k, OrderNeeds a.registry.diagram [(s, t)] k → S k) :
    (Abstractor.registered d₀ S).Decides (d₀.Exhausts S) (s.le t) a
      (Below a.registry.diagram s t) := by
  intro b ⟨_, begun⟩ grown
  have grown := grown knownS.registry
  exact (le_returns (knownS.grows grown) (knownT.grows grown) begun fun k of =>
    needs k (of.of_grows knownS knownT grown)).mono
    fun _ _ _ _ iff => iff.trans (Below.iff_of_grows knownS knownT grown)

theorem bottom_le (s : PredicateState) : bottom.le s = pure true := rfl

theorem le_top (s : PredicateState) : s.le top = pure true := by cases s <;> rfl

/-- Two different paths of one block, each of which says something. -/
def Fork (s t : PredicateState) : Prop :=
  ∃ r p r' p', s = .inside r p ∧ t = .inside r' p' ∧ (r == r') = true ∧ p ≠ p' ∧
    s.isTop = false ∧ t.isTop = false

theorem Fork.not_below (fork : Fork s t) : ¬ Below d s t ∧ ¬ Below d t s := by
  obtain ⟨r, p, r', p', rfl, rfl, same, differ, left, right⟩ := fork
  rw [Below.inside_iff, Below.inside_iff, left, right]
  exact ⟨by simp [differ], by simp [differ.symm]⟩

/-- What a join is: an upper bound, or one path for the two paths of a fork. A boundary is one of the
states that are joined. -/
structure Joins (a : Abstractor) (s t j : PredicateState) : Prop where
  known : j.Known a
  boundary : ∀ r p, j = .boundary r p → j = s ∨ j = t
  larger : Below a.registry.diagram s t → j = t
  upper : ¬ Fork s t → Below a.registry.diagram s j ∧ Below a.registry.diagram t j
  fork : ∀ r p r' p', s = .inside r p → t = .inside r' p' → Fork s t → j = .inside r' (p.disj p')

theorem join_returns (knownS : s.Known a) (knownT : t.Known a) (begun : d₀.Builds S a.registry.diagram)
    (needs : ∀ k, OrderNeeds a.registry.diagram [(s, t)] k → S k)
    (needs' : ∀ k, OrderNeeds a.registry.diagram [(t, s)] k → S k) :
    (Abstractor.registered d₀ S).Returns (d₀.Exhausts S) (s.join t) a
      fun j _ => Joins a s t j := by
  have unforked {j : PredicateState} (known : j.Known a) (boundary : ∀ r p, j = .boundary r p →
      j = s ∨ j = t) (larger : Below a.registry.diagram s t → j = t) (notFork : ¬ Fork s t)
      (left : Below a.registry.diagram s j) (right : Below a.registry.diagram t j) : Joins a s t j :=
    ⟨known, boundary, larger, fun _ => ⟨left, right⟩, fun _ _ _ _ _ _ fork => (notFork fork).elim⟩
  have nothing (above : ¬ Below a.registry.diagram s t) (notFork : ¬ Fork s t) : Joins a s t top :=
    unforked (known_top knownS.registry) nofun (fun below => (above below).elim) notFork
      (.top s rfl) (.top t rfl)
  unfold join
  refine (le_decides knownS knownT needs).bind ⟨knownS.registry, begun⟩
    fun answer b validB grown decides => ?_
  split
  · rename_i yes
    have below := decides.mp yes
    exact returns_pure validB (unforked knownT (fun _ _ _ => .inr rfl) (fun _ => rfl)
      (fun fork => fork.not_below.1 below) below (.refl _ t))
  rename_i no
  rw [decides] at no
  refine ((le_decides knownT knownS needs').later grown).bind validB
    fun answer' c validC _ decides' => ?_
  split
  · rename_i yes
    have below := decides'.mp yes
    exact returns_pure validC (unforked knownS (fun _ _ _ => .inl rfl) (fun up => (no up).elim)
      (fun fork => fork.not_below.2 below) (.refl _ s) below)
  rename_i no'
  rw [decides'] at no'
  split
  · rename_i r p r' p'
    refine returns_pure validC ?_
    split
    · rename_i same
      have fork : Fork (.inside r p) (.inside r' p') := by
        rw [Below.inside_iff] at no no'
        refine ⟨r, p, r', p', rfl, rfl, same, fun equal => no (.inr ⟨same, equal⟩), ?_, ?_⟩
        · exact Bool.eq_false_of_not_eq_true fun always => no' (.inl always)
        · exact Bool.eq_false_of_not_eq_true fun always => no (.inl always)
      refine ⟨⟨knownT.registry, ?_⟩, nofun, fun up => (no up).elim,
        fun notFork => (notFork fork).elim, ?_⟩
      · rintro _ _ ⟨⟩
        exact knownT.has r' p' rfl
      · rintro _ _ _ _ ⟨⟩ ⟨⟩ -
        rfl
    · rename_i other
      refine nothing no ?_
      rintro ⟨_, _, _, _, ⟨⟩, ⟨⟩, same, -⟩
      exact other same
  · rename_i shapes
    refine returns_pure validC (nothing no ?_)
    rintro ⟨r, p, r', p', left, right, -⟩
    exact shapes r p r' p' left right

/-- A computation that compares the pairs of states returns a result unless the nodes for it are too
many. -/
def Compares (a : Abstractor) (pairs : List (PredicateState × PredicateState)) {α : Type}
    (act : AnalysisM Abstractor α) (result : α → Prop) : Prop :=
  (Abstractor.registered a.registry.diagram (OrderNeeds a.registry.diagram pairs)).Returns
    (a.registry.diagram.Exhausts (OrderNeeds a.registry.diagram pairs)) act a fun x _ => result x

theorem Compares.exists_run {pairs : List (PredicateState × PredicateState)} {α : Type}
    {act : AnalysisM Abstractor α} {result : α → Prop} (compares : Compares a pairs act result)
    (room : ∀ v, ¬ a.registry.diagram.Exhausts (OrderNeeds a.registry.diagram pairs) v) :
    ∃ x b, act.run a = .ok (.ok x, b) ∧ result x := by
  obtain ⟨x, b, run, -, -, holds⟩ := (Ensures.weaken compares room).exists_run
  exact ⟨x, b, run, holds⟩

theorem OrderNeeds.of_mem {pairs : List (PredicateState × PredicateState)} (mem : (s, t) ∈ pairs)
    (k : Valuation → Bool) (needs : OrderNeeds d [(s, t)] k) : OrderNeeds d pairs k := by
  obtain ⟨r, p, r', p', single, of⟩ := needs
  exact ⟨r, p, r', p', List.mem_singleton.mp single ▸ mem, of⟩

/-- The test is an order with a least and a greatest state. A join is an upper bound unless it is the one
path for a fork; a path of a fork is only below it if the join says nothing or is that path. Only too many
nodes for the comparisons of boundaries keep a test or a join from its result. -/
theorem order_laws (knownS : s.Known a) (knownT : t.Known a) (knownU : u.Known a) :
    Compares a [(s, s)] (s.le s) (fun below => below = true) ∧
    Compares a [(s, t), (t, u), (s, u)] (do return (← s.le t, ← t.le u, ← s.le u))
      (fun (first, second, both) => first = true → second = true → both = true) ∧
    (bottom.le s).run a = .ok (.ok true, a) ∧ (s.le top).run a = .ok (.ok true, a) ∧
    Compares a [(s, t), (t, s), (s, s), (t, t)]
      (do
        let j ← s.join t
        return (j, ← s.le j, ← t.le j))
      fun (j, left, right) => (¬ Fork s t → left = true ∧ right = true) ∧
        ∀ r p r' p', s = .inside r p → t = .inside r' p' → Fork s t → j = .inside r' (p.disj p') ∧
          (left = true ↔ j.isTop = true ∨ p = p.disj p') ∧
          (right = true ↔ j.isTop = true ∨ p' = p.disj p') := by
  have valid {S : (Valuation → Bool) → Prop} :
      (Abstractor.registered a.registry.diagram S).valid a :=
    ⟨knownS.registry, .refl knownS.registry.diagram⟩
  refine ⟨?_, ?_, ?_, ?_, ?_⟩
  · exact (le_decides knownS knownS fun _ => id).accepts valid (.refl _ s)
  · exact (le_decides knownS knownT (OrderNeeds.of_mem (by simp))).chain
      (le_decides knownT knownU (OrderNeeds.of_mem (by simp)))
      (le_decides knownS knownU (OrderNeeds.of_mem (by simp))) valid Below.trans
  · rw [bottom_le]
    rfl
  · rw [le_top]
    rfl
  · let pairs := [(s, t), (t, s), (s, s), (t, t)]
    have among (x y : PredicateState) (mem : (x, y) ∈ pairs) :=
      OrderNeeds.of_mem (d := a.registry.diagram) mem
    refine (join_returns knownS knownT valid.2 (among s t (by simp [pairs]))
      (among t s (by simp [pairs]))).bind fun j b validB grown joins => ?_
    have needs (x : PredicateState) (one : x = s ∨ x = t) (k : Valuation → Bool)
        (of : OrderNeeds a.registry.diagram [(x, j)] k) : OrderNeeds a.registry.diagram pairs k := by
      obtain ⟨r, p, r', p', single, -⟩ := id of
      obtain ⟨rfl, rfl⟩ := Prod.mk.injEq .. ▸ List.mem_singleton.mp single
      apply among _ _ _ k of
      rcases one with rfl | rfl <;> rcases joins.boundary r' p' rfl with same | same <;>
        simp [pairs, same]
    refine ((le_decides knownS joins.known (needs s (.inl rfl))).later grown).bind validB
      fun left c validC more decidesS => ?_
    refine ((le_decides knownT joins.known (needs t (.inr rfl))).later
      ((Abstractor.registered _ _).grows_trans grown more)).bind validC fun right d validD _ decidesT => ?_
    refine returns_pure validD ⟨fun notFork => ?_, ?_⟩
    · obtain ⟨lower, lower'⟩ := joins.upper notFork
      exact ⟨decidesS.mpr lower, decidesT.mpr lower'⟩
    · rintro r p r' p' rfl rfl fork
      have joined := joins.fork r p r' p' rfl rfl fork
      obtain ⟨_, _, _, _, ⟨⟩, ⟨⟩, same, -⟩ := fork
      subst joined
      rw [decidesS, decidesT, Below.inside_iff, Below.inside_iff, same]
      exact ⟨rfl, by simp, by simp [BEq.beq, Abstraction.same]⟩

def valued (v : Int) : PathFormula :=
  PathFormula.empty.assume (.atom .eq (.symbolic "x") (.const v))

def ofPath (p : PathFormula) : PredicateState := .inside (.top .empty) p

theorem known_ofPath (valid : a.registry.Valid) (p : PathFormula) : (ofPath p).Known a := by
  refine ⟨valid, ?_⟩
  rintro _ _ ⟨⟩
  exact Diagram.has_one _

theorem exists_valid : ∃ a : Abstractor, a.registry.Valid := by
  obtain ⟨d, empty⟩ := Registry.exists_empty
  exact ⟨⟨⟨d, []⟩, ⟨{}, {}⟩, ⟨{}, {}⟩, {}, {}⟩, Registry.empty_valid empty⟩

/-- A boundary with a region that no formula is asked for. -/
def ofRegion (q : Region) : PredicateState := .boundary ⟨q, .bool true, .bool true, .empty⟩ .empty

theorem known_ofRegion {q : Region} (valid : a.registry.Valid) (has : a.registry.diagram.Has q.ref) :
    (ofRegion q).Known a := by
  refine ⟨valid, ?_⟩
  rintro _ _ ⟨⟩
  exact has

theorem OrderNeeds.not_exhausts (valid : a.registry.diagram.Valid) (few : a.registry.diagram.vars ≤ 4)
    (pairs : List (PredicateState × PredicateState)) (v : Violation) :
    ¬ a.registry.diagram.Exhausts (OrderNeeds a.registry.diagram pairs) v :=
  valid.not_exhausts few fun _ needs => needs.onlyOn fun r => valid.onlyOn le_rfl r

/-- The join with a larger state is that state, whatever is asked of it afterwards. -/
theorem join_larger (knownS : s.Known a) (knownT : t.Known a) (below : Below a.registry.diagram s t) :
    Ensures (do
      let j ← s.join t
      return (j, ← s.le j, ← t.le j)) a (fun _ => True) (fun _ _ => True) fun (j, _, _) _ => j = t := by
  have joins := join_returns (S := fun _ => True) knownS knownT (.refl knownS.registry.diagram)
    (fun _ _ => trivial) fun _ _ => trivial
  rw [Attempt.ensures_bind]
  apply (joins.weaken fun _ _ => trivial).imp _ fun _ _ => False.elim
  rintro j b ⟨-, -, joins⟩
  rw [Attempt.ensures_bind]
  apply (Attempt.ensures_true _ _).mono
  intro x c _
  rw [Attempt.ensures_bind]
  apply (Attempt.ensures_true _ _).mono
  intro y d _
  exact joins.larger below

/-- For two predicates, the boundary where both hold is below that of the first, and this below the one
that says nothing. The join of the first two is the second. The two paths of a fork are joined to a path
that is above neither. -/
theorem order_laws_both : ∃ (a : Abstractor) (p q : Predicate) (both : Region),
    p ∈ a.registry.predicates ∧ q ∈ a.registry.predicates ∧ p ≠ q ∧
    (∀ v, a.registry.diagram.eval v both.ref = (v (a.registry.diagram.var p.marker.ref) &&
      v (a.registry.diagram.var q.marker.ref))) ∧
    (∃ b, ((ofRegion both).le (ofRegion both)).run a = .ok (.ok true, b)) ∧
    (∃ b, (do return (← (ofRegion both).le (ofRegion p.marker),
      ← (ofRegion p.marker).le initial, ← (ofRegion both).le initial)).run a =
        .ok (.ok (true, true, true), b)) ∧
    (∃ b, (do
      let j ← (ofRegion both).join (ofRegion p.marker)
      return (j, ← (ofRegion both).le j, ← (ofRegion p.marker).le j)).run a =
        .ok (.ok (ofRegion p.marker, true, true), b)) ∧
    Fork (ofPath (valued 1)) (ofPath (valued 2)) ∧
    (do
      let j ← (ofPath (valued 1)).join (ofPath (valued 2))
      return (j, ← (ofPath (valued 1)).le j, ← (ofPath (valued 2)).le j)).run a =
        .ok (.ok (ofPath ((valued 1).disj (valued 2)), false, false), a) := by
  obtain ⟨reg, p, q, both, valid, memP, memQ, apart, -, -, has, eval, vars⟩ :=
    Registry.exists_both (.atom .lt (.symbolic "x") (.const 5)) (.atom .eq (.symbolic "y") (.const 0))
      (by decide)
  have marks := valid.marks p memP
  let a : Abstractor := ⟨reg, ⟨{}, {}⟩, ⟨{}, {}⟩, {}, {}⟩
  have few : a.registry.diagram.vars ≤ 4 := Nat.le_trans vars (by decide)
  have room := OrderNeeds.not_exhausts (a := a) valid.diagram few
  have knownBoth : (ofRegion both).Known a := known_ofRegion valid has
  have knownP : (ofRegion p.marker).Known a := known_ofRegion valid marks.has
  have knownAll : initial.Known a := known_ofRegion valid (Diagram.has_one _)
  have inside : ∀ v, reg.diagram.eval v both.ref = true → reg.diagram.eval v p.marker.ref = true := by
    intro v holds
    rw [eval] at holds
    exact (marks.eval v).trans (Bool.and_eq_true_iff.mp holds).1
  have below : Below reg.diagram (ofRegion both) (ofRegion p.marker) := .boundary _ _ inside
  have belowAll (r : Region) : Below reg.diagram (ofRegion r) initial :=
    .boundary _ _ fun v _ => Diagram.eval_one ..
  have begun {S : (Valuation → Bool) → Prop} : reg.diagram.Builds S reg.diagram := .refl valid.diagram
  obtain ⟨self, chain, -, -, joined⟩ := order_laws knownBoth knownP knownAll
  obtain ⟨_, b, runSelf, rfl⟩ := self.exists_run (room _)
  obtain ⟨⟨x, y, z⟩, c, runChain, -⟩ := chain.exists_run (room _)
  have tests := (le_decides (S := fun _ => True) knownBoth knownP fun _ _ => trivial).three
    (le_decides knownP knownAll fun _ _ => trivial) (le_decides knownBoth knownAll fun _ _ => trivial)
    ⟨valid, begun⟩
  obtain ⟨-, -, first, second, third⟩ := tests.of_ok runChain
  obtain ⟨rfl, rfl, rfl⟩ : x = true ∧ y = true ∧ z = true :=
    ⟨first.mpr below, second.mpr (belowAll _), third.mpr (belowAll _)⟩
  obtain ⟨⟨j, x, y⟩, d, runJoin, upper, -⟩ := joined.exists_run (room _)
  obtain rfl : j = ofRegion p.marker := (join_larger knownBoth knownP below).of_ok runJoin
  obtain ⟨rfl, rfl⟩ := upper (by rintro ⟨_, _, _, _, ⟨⟩, -⟩)
  have fork : Fork (ofPath (valued 1)) (ofPath (valued 2)) :=
    ⟨_, _, _, _, rfl, rfl, by decide, by decide, by decide, by decide⟩
  exact ⟨a, p, q, both, memP, memQ, apart, eval, ⟨b, runSelf⟩, ⟨c, runChain⟩, ⟨d, runJoin⟩, fork, rfl⟩

/-- Neither path of a fork is below the join. -/
theorem join_not_above_valued : ∃ a : Abstractor, (ofPath (valued 1)).Known a ∧
    (ofPath (valued 2)).Known a ∧
    (do (ofPath (valued 1)).le (← (ofPath (valued 1)).join (ofPath (valued 2)))).run a =
      .ok (.ok false, a) := by
  obtain ⟨a, valid⟩ := exists_valid
  exact ⟨a, known_ofPath valid _, known_ofPath valid _, rfl⟩

end PredicateState

end ProgramAnalysis
