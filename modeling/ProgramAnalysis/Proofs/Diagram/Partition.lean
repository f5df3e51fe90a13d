import ProgramAnalysis.Proofs.Diagram.Enumeration
import ProgramAnalysis.Proofs.Predicate.Registry
import ProgramAnalysis.Proofs.Region

/-! The paths of a function divide its models: each model takes one path and nothing else takes any.
A search gives every path once, in order. As regions, the paths are cubes without common elements, and
together they are the region again. -/
namespace ProgramAnalysis

namespace Checked

variable {ε σ α β : Type} {bad : ε → Prop} {f : α → StateT σ (Except ε) β} {xs : List α} {s : σ}

theorem ensures_mapM_forall₂ (inv : σ → Prop) (grows : σ → σ → Prop) (relates : σ → α → β → Prop)
    (refl : ∀ s, inv s → grows s s) (trans : ∀ {s t u}, grows s t → grows t u → grows s u)
    (lasts : ∀ {s t a b}, inv s → grows s t → relates s a b → relates t a b) (start : inv s)
    (each : ∀ a ∈ xs, ∀ s, inv s → Ensures (f a) s bad fun b t => inv t ∧ grows s t ∧ relates t a b) :
    Ensures (xs.mapM f) s bad fun bs t => inv t ∧ grows s t ∧ List.Forall₂ (relates t) xs bs := by
  induction xs generalizing s with
  | nil => exact ⟨start, refl s start, .nil⟩
  | cons x xs ih =>
    obtain ⟨here, rest⟩ := List.forall_mem_cons.mp each
    rw [List.mapM_cons, ensures_bind]
    apply (here s start).mono
    rintro b t ⟨kept, grown, related⟩
    rw [ensures_bind]
    apply (ih kept rest).mono
    rintro bs u ⟨kept', more, others⟩
    exact ⟨kept', trans grown more, .cons (lasts kept more related) others⟩

end Checked

namespace Diagram

open Checked (Ensures)

variable {d e : Diagram} {f r : Ref} {n : Node} {v : Valuation} {path : List Int}

/-! ### The search -/

/-- The paths that a search still gives. -/
def remaining (d : Diagram) (pending : List (Ref × List Int)) : List (List Int) :=
  pending.flatMap fun e => (d.paths e.1).map (e.2 ++ ·)

theorem remaining_cons (d : Diagram) (r : Ref) (taken : List Int) (rest : List (Ref × List Int)) :
    d.remaining ((r, taken) :: rest) = (d.paths r).map (taken ++ ·) ++ d.remaining rest :=
  List.flatMap_cons

theorem remaining_of_node? (inner : d.node? r = some n) (taken : List Int)
    (rest : List (Ref × List Int)) : d.remaining ((r, taken) :: rest) =
      d.remaining ((d.high r, taken ++ [literal n.var true]) ::
        (d.low r, taken ++ [literal n.var false]) :: rest) := by
  simp [remaining_cons, paths_of_node? inner, Function.comp_def]

theorem remaining_of_nextPath (pending : List (Ref × List Int)) :
    d.remaining pending = match d.nextPath pending with
      | none => []
      | some (path, rest) => path :: d.remaining rest := by
  fun_induction nextPath d pending with
  | case1 => rfl
  | case2 taken rest _ ih =>
    rw [remaining_cons, paths_zero, List.map_nil, List.nil_append, ih]
  | case3 r taken rest terminal nonzero =>
    simp [remaining_cons, paths_of_terminal terminal nonzero]
  | case4 r taken rest n inner ih => rw [remaining_of_node? inner, ih]

theorem pathsFrom_eq (pending : List (Ref × List Int)) :
    d.pathsFrom pending = d.remaining pending := by
  fun_induction pathsFrom d pending with
  | case1 pending ended => rw [remaining_of_nextPath, ended]
  | case2 pending path rest next ih => rw [remaining_of_nextPath, next, ih]

/-! ### One path for each model -/

/-- The valuation has the values of the literals, so evaluation takes the path. -/
def Takes (v : Valuation) (path : List Int) : Prop := ∀ lit ∈ path, Satisfies v lit

instance : Decidable (Takes v path) := inferInstanceAs (Decidable (∀ lit ∈ path, _))

theorem takes_cons {lit : Int} : Takes v (lit :: path) ↔ Satisfies v lit ∧ Takes v path :=
  List.forall_mem_cons

theorem countP_eq_any {α : Type} {p : α → Bool} {xs : List α}
    (apart : xs.Pairwise fun a b => p a = true → p b = false) :
    xs.countP p = if xs.any p then 1 else 0 := by
  induction xs with
  | nil => rfl
  | cons x xs ih =>
    obtain ⟨first, apart⟩ := List.pairwise_cons.mp apart
    rw [List.countP_cons, List.any_cons, ih apart]
    cases here : p x with
    | false => simp
    | true =>
      have none : xs.any p = false := by
        rw [List.any_eq_false]
        intro y mem
        simp [first y mem here]
      simp [none]

/-- Two paths part at a node, and take different values there. -/
theorem paths_apart (small : d.VarsBelow 0x80000000) (r : Ref) :
    (d.paths r).Pairwise fun p q => ∀ v, Takes v p → ¬ Takes v q := by
  fun_induction paths d r with
  | case1 => exact .nil
  | case2 => exact List.pairwise_singleton _ _
  | case3 r n inner high low =>
    have root := getElem?_of_node? inner
    have nonzero := (d.reduced _ _ root).var_ne_zero
    have behind {b : Bool} {p q : List Int} (apart : ∀ v, Takes v p → ¬ Takes v q) (v : Valuation)
        (first : Takes v (literal n.var b :: p)) : ¬ Takes v (literal n.var b :: q) :=
      fun second => apart v (takes_cons.mp first).2 (takes_cons.mp second).2
    rw [List.pairwise_append, List.pairwise_map, List.pairwise_map]
    refine ⟨high.imp behind, low.imp behind, ?_⟩
    intro p memP q memQ v first second
    obtain ⟨p', -, rfl⟩ := List.mem_map.mp memP
    obtain ⟨q', -, rfl⟩ := List.mem_map.mp memQ
    have yes := (satisfies_literal nonzero (small _ _ root) true).mp (takes_cons.mp first).1
    have no := (satisfies_literal nonzero (small _ _ root) false).mp (takes_cons.mp second).1
    exact Bool.false_ne_true (no.symm.trans yes)

theorem apart_of_ne (small : d.VarsBelow 0x80000000) {i j : Nat} {p q : List Int} (differ : i ≠ j)
    (atI : (d.paths r)[i]? = some p) (atJ : (d.paths r)[j]? = some q) (v : Valuation)
    (first : Takes v p) : ¬ Takes v q := by
  obtain ⟨insideI, rfl⟩ := List.getElem?_eq_some_iff.mp atI
  obtain ⟨insideJ, rfl⟩ := List.getElem?_eq_some_iff.mp atJ
  have apart := List.pairwise_iff_getElem.mp (paths_apart small r)
  cases Nat.lt_or_gt_of_ne differ with
  | inl before => exact apart i j insideI insideJ before v first
  | inr after => exact fun second => apart j i insideJ insideI after v second first

theorem countP_takes (ordered : d.Ordered) (small : d.VarsBelow 0x80000000) (has : d.Has r)
    (v : Valuation) : (d.paths r).countP (Takes v) = if d.eval v r then 1 else 0 := by
  have apart := (paths_apart small r).imp fun apart (first : decide (Takes v _) = true) =>
    decide_eq_false (apart v (of_decide_eq_true first))
  rw [countP_eq_any apart]
  congr 1
  rw [eq_iff_iff, List.any_eq_true, eval_iff_paths ordered small has]
  simp only [decide_eq_true_eq]
  rfl

/-! ### Cubes -/

/-- A literal as a region variable with its value. -/
structure LiteralOf (e : Diagram) (lit : Int) (l : Region × Bool) : Prop where
  has : e.Has l.1.ref
  eval : ∀ v, e.eval v l.1.ref = v lit.natAbs
  value : l.2 = decide (0 < lit)

def CubeOf (e : Diagram) (path : List Int) (c : List (Region × Bool)) : Prop :=
  List.Forall₂ (LiteralOf e) path c

/-- The elements of a cube. -/
def InCube (e : Diagram) (c : List (Region × Bool)) (v : Valuation) : Prop :=
  ∀ l ∈ c, e.eval v l.1.ref = l.2

variable {c c' : List (Region × Bool)} {cs : List (List (Region × Bool))}

theorem LiteralOf.grows {lit : Int} {l : Region × Bool} (literal : LiteralOf d lit l) (valid : d.Valid)
    (grown : d.Grows e) : LiteralOf e lit l :=
  ⟨grown.has literal.has, fun v => (grown.nodes.eval_valid valid literal.has v).trans (literal.eval v),
    literal.value⟩

theorem CubeOf.grows (cube : CubeOf d path c) (valid : d.Valid) (grown : d.Grows e) :
    CubeOf e path c := List.Forall₂.imp (fun _ _ literal => literal.grows valid grown) cube

theorem CubeOf.has (cube : CubeOf e path c) : ∀ l ∈ c, e.Has l.1.ref := by
  induction cube with
  | nil => exact List.forall_mem_nil _
  | cons literal _ ih => exact List.forall_mem_cons.mpr ⟨literal.has, ih⟩

theorem CubeOf.inCube_iff (cube : CubeOf e path c) : InCube e c v ↔ Takes v path := by
  induction cube with
  | nil => exact ⟨nofun, nofun⟩
  | cons literal _ ih =>
    rw [InCube, List.forall_mem_cons, takes_cons, ← ih, literal.eval, literal.value]
    rfl

theorem inCube_grows (valid : d.Valid) (grown : d.Grows e) (has : ∀ l ∈ c, d.Has l.1.ref) :
    InCube e c v ↔ InCube d c v :=
  forall₂_congr fun l mem => by rw [grown.nodes.eval_valid valid (has l mem)]

theorem exists_inCube_iff {paths : List (List Int)} (cubes : List.Forall₂ (CubeOf e) paths cs) :
    (∃ c ∈ cs, InCube e c v) ↔ ∃ path ∈ paths, Takes v path := by
  induction cubes with
  | nil => simp
  | cons cube _ ih => simp only [List.exists_mem_cons_iff, cube.inCube_iff, ih]

theorem exists_path_of_cube {paths : List (List Int)} {i : Nat}
    (cubes : List.Forall₂ (CubeOf e) paths cs) (here : cs[i]? = some c) :
    ∃ path, paths[i]? = some path ∧ CubeOf e path c := by
  induction cubes generalizing i with
  | nil => cases here
  | cons cube _ ih =>
    cases i with
    | zero =>
      cases here
      exact ⟨_, rfl, cube⟩
    | succ i => exact ih here

/-- The cubes of paths need the nodes of their variables. -/
def LiteralNeeds (paths : List (List Int)) (k : Valuation → Bool) : Prop :=
  ∃ path ∈ paths, ∃ lit ∈ path, Cofactor (fun v => v lit.natAbs) k

theorem cubes_ensures (valid : d.Valid) (small : d.VarsBelow 0x80000000) (r : Region) :
    Ensures r.cubes d (d.Exhausts (LiteralNeeds (d.paths r.ref))) fun cs e =>
      (d.Grows e ∧ d.Builds (LiteralNeeds (d.paths r.ref)) e) ∧
        List.Forall₂ (CubeOf e) (d.paths r.ref) cs := by
  let Reached (e : Diagram) : Prop := d.Grows e ∧ d.Builds (LiteralNeeds (d.paths r.ref)) e
  unfold Region.cubes
  rw [Checked.ensures_bind, Checked.ensures_get]
  apply (Checked.ensures_mapM_forall₂ Reached Diagram.Grows CubeOf (fun _ reached => .refl reached.2.valid)
    Grows.trans (fun reached more cube => cube.grows reached.2.valid more)
    ⟨.refl valid, .refl valid⟩ ?_).mono
  · exact fun cs e ⟨reached, _, cubes⟩ => ⟨reached, cubes⟩
  intro path mem e reached
  apply Checked.ensures_mapM_forall₂ Reached Diagram.Grows LiteralOf
    (fun _ reached => .refl reached.2.valid) Grows.trans
    (fun reached more literal => literal.grows reached.2.valid more) reached
  rintro lit inside e ⟨grown, builds⟩
  obtain ⟨i, n, root, var⟩ := exists_node_of_mem_paths small mem lit inside
  have inUse : lit.natAbs ≤ e.vars := by
    rw [var, grown.vars]
    exact valid.var_le i n root
  have below : lit.natAbs < bottomLevel := by
    have := small i n root
    unfold bottomLevel
    omega
  rw [Checked.ensures_bind]
  apply (mkVar_ensures grown.valid (var ▸ (d.reduced i n root).var_ne_zero) inUse below).imp _
    fun _ full => builds.exhausts full
  rintro x e' ⟨⟨more, has, eval⟩, made⟩
  have builds' := builds.trans (made.mono fun k of => ⟨path, mem, lit, inside, of⟩)
  exact ⟨⟨grown.trans more, builds'⟩, more, has, eval, rfl⟩

theorem cube_reads {d₀ : Diagram} {S : (Valuation → Bool) → Prop} (begun : d₀.Builds S e) (valid : d.Valid)
    (grown : d.Grows e) (has : ∀ l ∈ c, d.Has l.1.ref) (needs : ∀ k, Region.CubeNeeds d c k → S k) :
    Ensures (Region.cube c) e (d₀.Exhausts S) fun x e' =>
      Region.Reads e e' x (InCube d c) ∧ d₀.Builds S e' := by
  have later (k : Valuation → Bool) (of : Region.CubeNeeds e c k) : Region.CubeNeeds d c k := by
    obtain ⟨ls, before, requires⟩ := of
    exact ⟨ls, before, requires.congr fun v =>
      inCube_grows valid grown fun l mem => has l (before.subset mem)⟩
  apply (Region.cube_ensures begun (fun l mem => grown.has (has l mem)) fun k of =>
    needs k (later k of)).mono
  rintro x e' ⟨reads, builds⟩
  exact ⟨reads.imp fun _ => inCube_grows valid grown has, builds⟩

/-- The disjunction of cubes. -/
def unionOf (cs : List (List (Region × Bool))) : DiagramM Region :=
  cs.foldlM (fun acc c => do acc.or (← Region.cube c)) Region.bottom

/-- The conjunction of two cubes. -/
def meetOf (c c' : List (Region × Bool)) : DiagramM Region := do
  (← Region.cube c).and (← Region.cube c')

/-- A union of cubes needs the nodes of the cubes, and those of the unions on the way. -/
def UnionNeeds (e : Diagram) (cs : List (List (Region × Bool))) (k : Valuation → Bool) : Prop :=
  (∃ c ∈ cs, Region.CubeNeeds e c k) ∨
    ∃ done, done <+: cs ∧ Region.Requires (fun v => ∃ c ∈ done, InCube e c v) k

theorem union_ensures (valid : e.Valid) (has : ∀ c ∈ cs, ∀ l ∈ c, e.Has l.1.ref) :
    Ensures (unionOf cs) e (e.Exhausts (e.UnionNeeds cs)) fun r e' =>
      Region.Reads e e' r fun v => ∃ c ∈ cs, InCube e c v := by
  unfold unionOf
  apply (Checked.ensures_foldlM (fun rest acc e' => ∃ done, done ++ rest = cs ∧
    Region.Reads e e' acc (fun v => ∃ c ∈ done, InCube e c v) ∧
      e.Builds (e.UnionNeeds cs) e') ?_ ?_).mono ?_
  · exact ⟨[], rfl, (Region.reads_bottom valid).imp (by simp), .refl valid⟩
  · rintro c rest acc e₁ ⟨done, whole, reads, builds⟩
    have mem : c ∈ cs := whole ▸ by simp
    have more : done ++ [c] <+: cs := ⟨rest, by simp [← whole]⟩
    rw [Checked.ensures_bind]
    apply (cube_reads builds valid reads.grows (has c mem) fun k of => .inl ⟨c, mem, of⟩).mono
    rintro x e₂ ⟨cube, builds⟩
    have means (v : Valuation) : ((∃ c ∈ done, InCube e c v) ∨ e₂.eval v x.ref = true) ↔
        ∃ c' ∈ done ++ [c], InCube e c' v := by
      rw [cube.eval]
      simp [or_and_right, exists_or]
    apply ((reads.mono cube.grows).or builds cube.has fun k of =>
      .inr ⟨_, more, of.congr means⟩).mono
    rintro r e₃ ⟨union, builds⟩
    exact ⟨done ++ [c], by simp [← whole], union.imp means, builds⟩
  · rintro r e' ⟨done, whole, reads, -⟩
    rw [List.append_nil] at whole
    exact whole ▸ reads

def MeetNeeds (e : Diagram) (c c' : List (Region × Bool)) (k : Valuation → Bool) : Prop :=
  Region.CubeNeeds e (c ++ c') k ∨ Region.CubeNeeds e c' k

theorem apart_ensures (valid : e.Valid) (has : ∀ l ∈ c, e.Has l.1.ref)
    (has' : ∀ l ∈ c', e.Has l.1.ref) (apart : ∀ v, InCube e c v → ¬ InCube e c' v) :
    Ensures (meetOf c c') e (e.Exhausts (e.MeetNeeds c c')) fun x _ => x = .bottom := by
  have part (k : Valuation → Bool) (of : Region.CubeNeeds e c k) : Region.CubeNeeds e (c ++ c') k := by
    obtain ⟨ls, before, requires⟩ := of
    exact ⟨ls, before.trans (List.prefix_append _ _), requires⟩
  unfold meetOf
  rw [Checked.ensures_bind]
  apply (cube_reads (.refl valid) valid (.refl valid) has fun k of => .inl (part k of)).mono
  rintro x e₁ ⟨first, builds⟩
  rw [Checked.ensures_bind]
  apply (cube_reads builds valid first.grows has' fun k => .inr).mono
  rintro y e₂ ⟨second, builds⟩
  have means (v : Valuation) : (InCube e c v ∧ e₂.eval v y.ref = true) ↔ InCube e (c ++ c') v := by
    rw [second.eval, InCube, InCube, InCube, List.forall_mem_append]
  apply ((first.mono second.grows).and builds second.has fun k of =>
    .inl ⟨c ++ c', List.prefix_refl _, of.congr means⟩).mono
  rintro z e₃ ⟨both, -⟩
  have none := (Region.isFalse_iff both.grows.valid both.has).mpr fun v => by
    rw [← Bool.not_eq_true, both.eval, second.eval]
    exact fun ⟨inside, inside'⟩ => apart v inside inside'
  exact congrArg Region.mk (of_decide_eq_true none)

theorem paths?_eq (small : d.VarsBelow 0x80000000) (r : Ref) : d.paths? r = .ok (d.paths r) := by
  have absent : ¬ (d.support r).contains 0x80000000 = true := by
    rw [List.contains_iff_mem, support, List.mem_mergeSort, List.mem_eraseDups, List.mem_map]
    rintro ⟨i, -, same⟩
    unfold var at same
    split at same
    · rename_i n inner
      have := small _ n (getElem?_of_node? inner)
      omega
    · cases same
  rw [paths?, if_neg absent]

/-- The paths of a function, one after another, are increasing and divide the models of the function.
The cubes of a region are disjoint and make up the region. Only more nodes than there are numbers for can
keep them from being made. -/
theorem paths_partition (valid : d.Valid) (small : d.VarsBelow 0x80000000) (has : d.Has f) :
    d.pathsFrom [(f, [])] = d.paths f ∧ d.paths? f = .ok (d.paths f) ∧
    (∀ path ∈ d.paths f, path.Pairwise (fun a b => a.natAbs < b.natAbs) ∧
      ∀ lit ∈ path, lit.natAbs ≠ 0) ∧
    (∀ v, (d.paths f).countP (Takes v) = if d.eval v f then 1 else 0) ∧
    Ensures (Region.cubes ⟨f⟩) d (d.Exhausts (LiteralNeeds (d.paths f))) fun cs e =>
      List.Forall₂ (CubeOf e) (d.paths f) cs ∧
      Ensures (unionOf cs) e (e.Exhausts (e.UnionNeeds cs)) (fun r _ => r = ⟨f⟩) ∧
      ∀ (i j : Nat) c c', i ≠ j → cs[i]? = some c → cs[j]? = some c' →
        Ensures (meetOf c c') e (e.Exhausts (e.MeetNeeds c c')) fun x _ => x = .bottom := by
  have ordered := valid.ordered
  refine ⟨?_, paths?_eq small f, fun path mem => ?_, countP_takes ordered small has, ?_⟩
  · rw [pathsFrom_eq]
    simp [remaining]
  · exact ⟨(increasing_of_mem_paths ordered small mem).1, natAbs_ne_zero_of_mem_paths small mem⟩
  apply (cubes_ensures valid small ⟨f⟩).mono
  rintro cs e ⟨⟨grown, -⟩, cubes⟩
  have hasCubes : ∀ c ∈ cs, ∀ l ∈ c, e.Has l.1.ref := by
    intro c mem
    obtain ⟨i, here⟩ := List.getElem?_of_mem mem
    obtain ⟨path, -, cube⟩ := exists_path_of_cube cubes here
    exact cube.has
  refine ⟨cubes, ?_, ?_⟩
  · apply (union_ensures grown.valid hasCubes).mono
    intro r e' reads
    apply (Region.reads_self valid has).eq reads grown
    intro v
    rw [exists_inCube_iff cubes]
    exact (eval_iff_paths ordered small has v).symm
  · intro i j c c' differ here there
    obtain ⟨p, atI, cube⟩ := exists_path_of_cube cubes here
    obtain ⟨q, atJ, cube'⟩ := exists_path_of_cube cubes there
    apply apart_ensures grown.valid cube.has cube'.has
    intro v
    rw [cube.inCube_iff, cube'.inCube_iff]
    exact apart_of_ne small differ atI atJ v

theorem UnionNeeds.onlyOn {xs : Finset Nat} {k : Valuation → Bool} (needs : e.UnionNeeds cs k)
    (only : ∀ c ∈ cs, ∀ l ∈ c, OnlyOn xs (e.eval · l.1.ref)) : OnlyOn xs k := by
  rcases needs with ⟨c, mem, needs⟩ | ⟨done, before, requires⟩
  · exact needs.onlyOn (only c mem)
  · exact requires.onlyOn fun v w agree => exists_congr fun c => and_congr_right fun mem =>
      forall₂_congr fun l inside => Eq.congr_left (only c (before.subset mem) l inside v w agree)

/-- A function that holds where one of two variables is true takes two paths: the path of both would allow
that neither is. -/
theorem two_le_length_paths (ordered : d.Ordered) (small : d.VarsBelow 0x80000000) (has : d.Has f)
    {x y : Nat} (differ : x ≠ y) (eval : ∀ v, d.eval v f = (v x || v y)) : 2 ≤ (d.paths f).length := by
  let only (z w : Nat) : Bool := decide (w = z)
  have taken (z : Nat) (one : z = x ∨ z = y) : ∃ path ∈ d.paths f, Takes (only z) path := by
    apply (eval_iff_paths ordered small has _).mp
    rw [eval]
    rcases one with rfl | rfl <;> simp [only]
  obtain ⟨p, memP, takesX⟩ := taken x (.inl rfl)
  obtain ⟨q, memQ, takesY⟩ := taken y (.inr rfl)
  have parted : p ≠ q := by
    rintro rfl
    have neither : d.eval (fun _ => false) f = true := by
      apply (eval_iff_paths ordered small has _).mpr
      refine ⟨p, memP, fun lit inside => ?_⟩
      have atX := takesX lit inside
      have atY := takesY lit inside
      unfold Satisfies at atX atY ⊢
      by_cases here : lit.natAbs = x
      · have notY : lit.natAbs ≠ y := fun there => differ (here.symm.trans there)
        simp only [only, here, decide_true] at atX
        simp only [only, notY, decide_false] at atY
        exact absurd (atX.trans atY.symm) (by decide)
      · simpa only [only, here, decide_false] using atX
    rw [eval] at neither
    cases neither
  cases list : d.paths f with
  | nil => simp [list] at memP
  | cons p' rest =>
    cases rest with
    | nil =>
      rw [list, List.mem_singleton] at memP memQ
      exact absurd (memP.trans memQ.symm) parted
    | cons => simp

/-- One of two variables is true. The cubes are made, put together to the region again, and the first two
of them are found to be disjoint. -/
theorem paths_partition_either : ∃ (d : Diagram) (f : Ref) (x y : Nat), d.Has f ∧ x ≠ y ∧
    (∀ v, d.eval v f = (v x || v y)) ∧ ∃ c c' cs e, Region.cubes ⟨f⟩ d = .ok (c :: c' :: cs, e) ∧
      (∃ e', unionOf (c :: c' :: cs) e = .ok (⟨f⟩, e')) ∧
      ∃ e', meetOf c c' e = .ok (.bottom, e') := by
  obtain ⟨reg, p, q, r, valid, memP, memQ, apart, -, -, has, eval, vars⟩ :=
    Registry.exists_joined (fun valid hasA hasB =>
      Region.or_ensures (.refl valid) hasA hasB (fun _ => rfl) fun _ => id)
      (.bool true) (.bool false) (by decide)
  have few : reg.diagram.vars ≤ 4 := Nat.le_trans vars (by decide)
  have small : reg.diagram.VarsBelow 0x80000000 := by
    intro i n here
    have inUse := valid.diagram.var_le i n here
    omega
  have differ : reg.diagram.var p.marker.ref ≠ reg.diagram.var q.marker.ref := fun same =>
    apart (valid.separate p memP q memQ same)
  have two := two_le_length_paths valid.diagram.ordered small has differ eval
  have room (v : Violation) : ¬ reg.diagram.Exhausts (LiteralNeeds (reg.diagram.paths r.ref)) v := by
    apply valid.diagram.not_exhausts few
    rintro k ⟨path, mem, lit, inside, of⟩
    obtain ⟨i, n, root, var⟩ := exists_node_of_mem_paths small mem lit inside
    have inUse := valid.diagram.var_le i n root
    have nonzero := (reg.diagram.reduced i n root).var_ne_zero
    have here : lit.natAbs ∈ Finset.Icc 1 reg.diagram.vars := Finset.mem_Icc.mpr (by omega)
    exact OnlyOn.cofactor (fun v w same => same _ here) of
  obtain ⟨-, -, -, -, cubes⟩ := paths_partition valid.diagram small has
  obtain ⟨cs, e, run, made, union, disjoint⟩ := (cubes.weaken room).exists_run
  obtain ⟨⟨grown, -⟩, -⟩ := (cubes_ensures valid.diagram small r).of_ok run
  have fewE : e.vars ≤ 4 := grown.vars.trans_le few
  have only (g : Ref) := grown.valid.onlyOn (Nat.le_refl _) g
  have size := made.length_eq
  obtain ⟨c, c', cs, rfl⟩ : ∃ c c' rest, cs = c :: c' :: rest := by
    match cs with
    | [] | [_] =>
      simp only [List.length_cons, List.length_nil] at size
      omega
    | c :: c' :: rest => exact ⟨c, c', rest, rfl⟩
  have unions (v : Violation) : ¬ e.Exhausts (e.UnionNeeds (c :: c' :: cs)) v :=
    grown.valid.not_exhausts fewE fun k of => of.onlyOn fun _ _ l _ => only l.1.ref
  obtain ⟨_, e₁, joined, rfl⟩ := (union.weaken unions).exists_run
  have meets (v : Violation) : ¬ e.Exhausts (e.MeetNeeds c c') v :=
    grown.valid.not_exhausts fewE fun k of =>
      of.elim (·.onlyOn fun l _ => only l.1.ref) (·.onlyOn fun l _ => only l.1.ref)
  obtain ⟨_, e₂, none, rfl⟩ :=
    ((disjoint 0 1 c c' (by decide) rfl rfl).weaken meets).exists_run
  exact ⟨reg.diagram, r.ref, _, _, has, differ, eval, c, c', cs, e, run, ⟨e₁, joined⟩, e₂, none⟩

end Diagram

end ProgramAnalysis
