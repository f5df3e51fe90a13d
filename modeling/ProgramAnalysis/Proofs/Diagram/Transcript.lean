import ProgramAnalysis.Diagram.Count
import ProgramAnalysis.Diagram.Paths
import ProgramAnalysis.Proofs.Diagram.Recomputation

/-! What a caller sees of a diagram: the answers to its requests, with the number of nodes after each of
them, up to the violation that ends the sequence. Two diagrams that differ only in their tables answer
every request alike, so the transcript of a sequence does not depend on the size of the table. -/
namespace ProgramAnalysis

namespace Diagram

open Checked (Ensures)

variable {d e : Diagram} {f g h r : Ref} {α β : Type}

/-- A reference that a caller has: a constant, an earlier answer, or a complement. -/
inductive Operand where
  | one
  | answer (i : Nat)
  | not (operand : Operand)

def Operand.read (known : List Ref) : Operand → Ref
  | .one => .one
  | .answer i => known[i]?.getD .one
  | .not operand => -operand.read known

inductive Request where
  | mkNode (x : Nat) (low high : Operand)
  | mkVar (x : Nat)
  | newVar
  | cube (literals : List Int)
  | ite (f g h : Operand)
  | and (f g : Operand)
  | or (f g : Operand)
  | xor (f g : Operand)
  | iff (f g : Operand)
  | andAll (fs : List Operand)
  | implies (f g : Operand)
  | existsVar (f : Operand) (x : Nat)
  | existsAll (f : Operand) (xs : List Nat)
  | low (f : Operand)
  | high (f : Operand)
  | var (f : Operand)
  | size (f : Operand)
  | support (f : Operand)
  | satCount (f : Operand) (n : Nat)
  | paths (f : Operand)

inductive Reply where
  | ref (r : Ref)
  | truth (b : Bool)
  | number (n : Nat)
  | numbers (ns : List Nat)
  | paths (ps : List (List Int))

def Reply.refs : Reply → List Ref
  | .ref r => [r]
  | _ => []

/-- Answers a request whose operands are among the references that are known. -/
def Request.run (known : List Ref) : Request → DiagramM Reply
  | .mkNode x f g => .ref <$> Diagram.mkNode x (f.read known) (g.read known)
  | .mkVar x => .ref <$> Diagram.mkVar x
  | .newVar => .number <$> Diagram.newVar
  | .cube literals => .ref <$> Diagram.cube literals
  | .ite f g h => .ref <$> Diagram.ite (f.read known) (g.read known) (h.read known)
  | .and f g => .ref <$> Diagram.and (f.read known) (g.read known)
  | .or f g => .ref <$> Diagram.or (f.read known) (g.read known)
  | .xor f g => .ref <$> Diagram.xor (f.read known) (g.read known)
  | .iff f g => .ref <$> Diagram.iff (f.read known) (g.read known)
  | .andAll fs => .ref <$> Diagram.andAll (fs.map (·.read known))
  | .implies f g => .truth <$> Diagram.implies (f.read known) (g.read known)
  | .existsVar f x => .ref <$> Diagram.existsVar (f.read known) x
  | .existsAll f xs => .ref <$> Diagram.existsAll (f.read known) xs
  | .low f => do return .ref ((← get).low (f.read known))
  | .high f => do return .ref ((← get).high (f.read known))
  | .var f => do return .number ((← get).var (f.read known))
  | .size f => do return .number ((← get).sizeOf (f.read known))
  | .support f => do return .numbers ((← get).support (f.read known))
  | .satCount f n => do return .number (← (← get).satCount (f.read known) n)
  | .paths f => do return .paths (← (← get).paths? (f.read known))

/-- Every answer with the number of nodes after it; a violation is the last entry. -/
def transcript : List Request → List Ref → Diagram → List (Except Violation (Reply × Nat))
  | [], _, _ => []
  | q :: qs, known, d =>
    match q.run known d with
    | .error v => [.error v]
    | .ok (a, e) => .ok (a, e.size) :: transcript qs (known ++ a.refs) e

/-- The transcript of a sequence of requests to a new diagram with a table of `2 ^ bits` slots. -/
def session (bits : Nat) (requests : List Request) :
    Except Violation (List (Except Violation (Reply × Nat))) := do
  return transcript requests [] (← ofBits bits)

/-! ### Two runs -/

/-- The diagrams only differ in what they remember, and remember right results only. -/
structure Alike (d e : Diagram) : Prop where
  forget : d.forget = e.forget
  left : d.Settled
  right : e.Settled

/-- Both runs end with the same violation, or with the same result and in diagrams that are alike. -/
def Agrees (act : DiagramM α) (d e : Diagram) (good : α → Diagram → Prop) : Prop :=
  Ensures act d (fun v => act e = .error v) fun a d' =>
    ∃ e', act e = .ok (a, e') ∧ d'.Alike e' ∧ d'.Extends d ∧ good a d'

theorem agrees_pure {a : α} {good : α → Diagram → Prop} (alike : d.Alike e) (here : good a d) :
    Agrees (pure a) d e good := ⟨e, rfl, alike, .refl d, here⟩

theorem agrees_throw {v : Violation} {good : α → Diagram → Prop} :
    Agrees (throw v) d e good := rfl

theorem agrees_get {next : Diagram → DiagramM α} {good : α → Diagram → Prop} (alike : d.Alike e)
    (same : ∀ d : Diagram, next d.forget = next d) (agrees : Agrees (next d) d e good) :
    Agrees (get >>= next) d e good := by
  have other : (get >>= next) e = next d e := by
    show next e e = next d e
    rw [← same e, ← same d, alike.forget]
  unfold Agrees at *
  rw [other]
  exact agrees

theorem agrees_liftM {act : Except Violation α} (alike : d.Alike e) :
    Agrees (liftM act : DiagramM α) d e fun _ _ => True := by
  cases act with
  | error v => rfl
  | ok a => exact agrees_pure alike trivial

theorem Agrees.bind {act : DiagramM α} {next : α → DiagramM β} {good : α → Diagram → Prop}
    {good' : β → Diagram → Prop} (first : Agrees act d e good)
    (then_ : ∀ a d' e', d'.Alike e' → d'.Extends d → good a d' → Agrees (next a) d' e' good') :
    Agrees (act >>= next) d e good' := by
  unfold Agrees
  rw [Checked.ensures_bind]
  apply first.imp
  · rintro a d' ⟨e', run, alike, grown, here⟩
    have other : (act >>= next) e = next a e' := by
      simp [Bind.bind, StateT.bind, Except.bind, run]
    rw [other]
    apply (then_ a d' e' alike grown here).mono
    rintro b d₂ ⟨e₂, run₂, alike₂, grown₂, here₂⟩
    exact ⟨e₂, run₂, alike₂, grown₂.trans grown, here₂⟩
  · intro v run
    simp [Bind.bind, StateT.bind, Except.bind, run]

theorem Agrees.mono {act : DiagramM α} {good good' : α → Diagram → Prop}
    (agrees : Agrees act d e good) (step : ∀ a d', good a d' → good' a d') :
    Agrees act d e good' := by
  apply Ensures.mono agrees
  rintro a d' ⟨e', run, alike, grown, here⟩
  exact ⟨e', run, alike, grown, step a d' here⟩

theorem Agrees.map {act : DiagramM α} {k : α → β} {good : β → Diagram → Prop}
    (agrees : Agrees act d e fun a d' => good (k a) d') : Agrees (k <$> act) d e good := by
  rw [← bind_pure_comp]
  exact agrees.bind fun a d' e' alike' _ here => agrees_pure alike' here

theorem Follows.agrees {act fresh : DiagramM Ref} (alike : d.Alike e) (first : Follows act fresh d)
    (second : Follows act fresh e) (settles : Settles fresh d.forget) :
    Agrees act d e fun r d' => d'.Inside r := by
  apply Checked.ensures_of_forall
  · intro r d' run
    -- Both runs follow one run of `fresh`, since the diagrams differ in what they remember only.
    obtain ⟨runD, keptD⟩ := first.of_ok run
    cases runE : act e with
    | error v =>
      have other := second.of_error runE
      rw [← alike.forget, runD] at other
      cases other
    | ok a =>
      obtain ⟨s, e'⟩ := a
      obtain ⟨other, keptE⟩ := second.of_ok runE
      rw [← alike.forget, runD] at other
      injection other with pair
      injection pair with ref forget
      obtain ⟨grown, inside, -⟩ := settles.of_ok runD
      exact ⟨e', ref ▸ rfl, ⟨forget, keptD, keptE⟩, grown, inside⟩
  · intro v run
    have runD := first.of_error run
    cases runE : act e with
    | error w =>
      have other := second.of_error runE
      rw [← alike.forget, runD] at other
      cases other
      rfl
    | ok a =>
      obtain ⟨other, -⟩ := second.of_ok runE
      rw [← alike.forget, runD] at other
      cases other

theorem Alike.extends (alike : d.Alike e) : e.Extends d := by
  have same : d.forget.nodes = e.forget.nodes := by rw [alike.forget]
  intro i n inside
  change e.forget.nodes[i]? = some n
  rw [← same]
  exact inside

/-! ### The operations -/

theorem mkNode_agrees {x : Nat} {low high : Ref} (alike : d.Alike e) (inside : d.Inside low) :
    Agrees (mkNode x low high) d e fun r d' => d'.Inside r :=
  (mkNode_follows alike.left).agrees alike (mkNode_follows alike.right) (mkNode_settles inside)

theorem ite_agrees (alike : d.Alike e) (insideF : d.Inside f) (insideG : d.Inside g)
    (insideH : d.Inside h) : Agrees (ite f g h) d e fun r d' => d'.Inside r := by
  have there := alike.extends
  exact (ite_follows alike.left insideF insideG insideH).agrees alike
    (ite_follows alike.right (insideF.later there) (insideG.later there) (insideH.later there))
    (freshIte_settles insideF insideG insideH)

theorem existsVar_agrees (x : Nat) (alike : d.Alike e) (inside : d.Inside f) :
    Agrees (existsVar f x) d e fun r d' => d'.Inside r :=
  (existsVar_follows x alike.left inside).agrees alike
    (existsVar_follows x alike.right (inside.later alike.extends)) (freshExists_settles x inside)

theorem inside_one : d.Inside .one := inside_of_index (by decide)

theorem inside_zero : d.Inside .zero := inside_of_index (by decide)

theorem mkVar_agrees (x : Nat) (alike : d.Alike e) :
    Agrees (mkVar x) d e fun r d' => d'.Inside r := mkNode_agrees alike inside_zero

theorem and_agrees (alike : d.Alike e) (insideF : d.Inside f) (insideG : d.Inside g) :
    Agrees (and f g) d e fun r d' => d'.Inside r := ite_agrees alike insideF insideG inside_zero

theorem newVar_agrees (alike : d.Alike e) : Agrees newVar d e fun _ _ => True := by
  have vars : d.forget.vars = e.forget.vars := by rw [alike.forget]
  change d.vars = e.vars at vars
  have counted := congrArg (fun k : Diagram => { k with vars := d.vars + 1 }) alike.forget
  unfold Agrees Ensures newVar
  rw [← vars]
  by_cases small : d.vars + 1 < 0x100000000
  · rw [if_pos small]
    refine ⟨{ e with vars := d.vars + 1 }, by rw [if_pos small], ⟨counted, ?_, ?_⟩,
      fun _ _ h => h, trivial⟩
    · exact fun op r found => alike.left op r found
    · exact fun op r found => alike.right op r found
  · rw [if_neg small]
    exact if_neg small

theorem agrees_foldlM {step : Ref → α → DiagramM Ref} (xs : List α) (alike : d.Alike e)
    (inside : d.Inside r) (steps : ∀ acc x d' e', d'.Alike e' → d'.Inside acc →
      Agrees (step acc x) d' e' fun r d₂ => d₂.Inside r) :
    Agrees (xs.foldlM step r) d e fun r d' => d'.Inside r := by
  induction xs generalizing r d e with
  | nil => exact agrees_pure alike inside
  | cons x xs ih =>
    rw [List.foldlM_cons]
    apply (steps r x d e alike inside).bind
    intro acc d' e' alike' _ inside'
    exact ih alike' inside'

theorem existsAll_agrees (xs : List Nat) (alike : d.Alike e) (inside : d.Inside f) :
    Agrees (existsAll f xs) d e fun r d' => d'.Inside r :=
  agrees_foldlM xs alike inside fun _ x _ _ alike' inside' => existsVar_agrees x alike' inside'

theorem cube_agrees (literals : List Int) (alike : d.Alike e) :
    Agrees (cube literals) d e fun r d' => d'.Inside r := by
  unfold cube
  split
  · exact agrees_throw
  · apply agrees_foldlM _ alike inside_one
    intro acc l d' e' alike' inside
    apply (mkVar_agrees l.natAbs alike').bind
    intro x d₂ e₂ alike₂ grown insideX
    exact and_agrees alike₂ (inside_complementIf.mpr insideX) (inside.later grown)

theorem andAll_agrees (fs : List Ref) (alike : d.Alike e) (inside : ∀ f ∈ fs, d.Inside f) :
    Agrees (andAll fs) d e fun r d' => d'.Inside r := by
  have run (acc : Ref) (insideAcc : d.Inside acc) :
      Agrees (andAll.go acc fs) d e fun r d' => d'.Inside r := by
    induction fs generalizing acc d e with
    | nil => exact agrees_pure alike insideAcc
    | cons f fs ih =>
      obtain ⟨head, tail⟩ := List.forall_mem_cons.mp inside
      apply (and_agrees alike insideAcc head).bind
      intro acc' d' e' alike' grown insideAcc'
      split
      · exact agrees_pure alike' insideAcc'
      · exact ih alike' (fun f mem => (tail f mem).later grown) acc' insideAcc'
  exact run .one inside_one

theorem implies_agrees (alike : d.Alike e) (insideF : d.Inside f) (insideG : d.Inside g) :
    Agrees (implies f g) d e fun _ _ => True :=
  (and_agrees alike insideF (inside_neg.mpr insideG)).bind fun _ _ _ alike' _ _ =>
    agrees_pure alike' trivial

/-! ### Looking at nodes -/

theorem visit_forget (d : Diagram) (r : Ref) (seen : Std.HashSet Nat) :
    d.forget.visit r seen = d.visit r seen := by
  fun_induction visit d r seen with
  | case1 r seen terminal =>
    rw [visit]
    split
    · rfl
    · rename_i n inner
      cases terminal.symm.trans inner
  | case2 r seen n inner known =>
    rw [visit]
    split
    · rfl
    · rw [if_pos known]
  | case3 r seen n inner unknown low high =>
    rw [visit]
    split
    · rename_i terminal
      cases inner.symm.trans terminal
    · rw [if_neg unknown]
      change d.forget.visit (d.high r) (d.forget.visit (d.low r) _) = _
      rw [low, high]

theorem support_forget (d : Diagram) (r : Ref) : d.forget.support r = d.support r := by
  simp only [support, reach, visit_forget]
  rfl

theorem sizeOf_forget (d : Diagram) (r : Ref) : d.forget.sizeOf r = d.sizeOf r := by
  simp only [sizeOf, reach, visit_forget]

theorem paths_forget (d : Diagram) (r : Ref) : d.forget.paths r = d.paths r := by
  fun_induction paths d r with
  | case1 terminal =>
    rw [paths]
    split
    · rfl
    · rename_i n inner
      cases terminal.symm.trans inner
  | case2 r terminal notZero =>
    rw [paths]
    split
    · rw [if_neg notZero]
    · rename_i n inner
      cases terminal.symm.trans inner
  | case3 r n inner high low =>
    rw [paths]
    split
    · rename_i terminal
      cases inner.symm.trans terminal
    · rename_i m inner'
      cases inner.symm.trans inner'
      change (d.forget.paths (d.high r)).map _ ++ (d.forget.paths (d.low r)).map _ = _
      rw [low, high]

theorem countFrom_forget (d : Diagram) (n : Nat) (r : Ref) :
    d.forget.countFrom n r = d.countFrom n r := by
  fun_induction countFrom d n r with
  | case1 r terminal =>
    rw [countFrom]
    split
    · rfl
    · rename_i n inner
      cases terminal.symm.trans inner
  | case2 r m inner low high =>
    rw [countFrom]
    split
    · rename_i terminal
      cases inner.symm.trans terminal
    · rename_i m' inner'
      cases inner.symm.trans inner'
      change d.forget.countFrom n (d.forget.low r) = _ at low
      change d.forget.countFrom n (d.forget.high r) = _ at high
      rw [low, high]
      rfl

theorem satCount_forget (d : Diagram) (r : Ref) (n : Nat) :
    d.forget.satCount r n = d.satCount r n := by
  simp only [satCount, support_forget, countFrom_forget]
  rfl

theorem paths?_forget (d : Diagram) (r : Ref) : d.forget.paths? r = d.paths? r := by
  simp only [paths?, support_forget, paths_forget]

/-! ### Sequences -/

theorem inside_read {known : List Ref} (inside : ∀ r ∈ known, d.Inside r) (operand : Operand) :
    d.Inside (operand.read known) := by
  induction operand with
  | one => exact inside_one
  | answer i =>
    unfold Operand.read
    cases found : known[i]? with
    | none => exact inside_one
    | some r => exact inside r (List.mem_of_getElem? found)
  | not operand ih => exact inside_neg.mpr ih

theorem agrees_ref {act : DiagramM Ref} (agrees : Agrees act d e fun r d' => d'.Inside r) :
    Agrees (Reply.ref <$> act) d e fun a d' => ∀ r ∈ a.refs, d'.Inside r :=
  (agrees.mono fun r d' inside => by simpa [Reply.refs] using inside).map

theorem Request.run_agrees {known : List Ref} (q : Request) (alike : d.Alike e)
    (inside : ∀ r ∈ known, d.Inside r) :
    Agrees (q.run known) d e fun a d' => ∀ r ∈ a.refs, d'.Inside r := by
  have read := inside_read inside
  cases q with
  | mkNode x f g => exact agrees_ref (mkNode_agrees alike (read f))
  | mkVar x => exact agrees_ref (mkVar_agrees x alike)
  | newVar => exact ((newVar_agrees alike).mono fun x d' _ => by simp [Reply.refs]).map
  | cube literals => exact agrees_ref (cube_agrees literals alike)
  | ite f g h => exact agrees_ref (ite_agrees alike (read f) (read g) (read h))
  | and f g => exact agrees_ref (and_agrees alike (read f) (read g))
  | or f g => exact agrees_ref (ite_agrees alike (read f) inside_one (read g))
  | xor f g => exact agrees_ref (ite_agrees alike (read f) (inside_neg.mpr (read g)) (read g))
  | iff f g => exact agrees_ref (ite_agrees alike (read f) (read g) (inside_neg.mpr (read g)))
  | andAll fs =>
    apply agrees_ref (andAll_agrees _ alike _)
    intro r mem
    obtain ⟨f, _, rfl⟩ := List.mem_map.mp mem
    exact read f
  | implies f g =>
    exact ((implies_agrees alike (read f) (read g)).mono fun b d' _ => by simp [Reply.refs]).map
  | existsVar f x => exact agrees_ref (existsVar_agrees x alike (read f))
  | existsAll f xs => exact agrees_ref (existsAll_agrees xs alike (read f))
  | low f =>
    apply agrees_get alike (fun _ => rfl)
    apply agrees_pure alike
    simpa [Reply.refs] using (read f).low
  | high f =>
    apply agrees_get alike (fun _ => rfl)
    apply agrees_pure alike
    simpa [Reply.refs] using (read f).high
  | var f =>
    apply agrees_get alike (fun _ => rfl)
    exact agrees_pure alike (by simp [Reply.refs])
  | size f =>
    apply agrees_get alike (fun k => by rw [sizeOf_forget])
    exact agrees_pure alike (by simp [Reply.refs])
  | support f =>
    apply agrees_get alike (fun k => by rw [support_forget])
    exact agrees_pure alike (by simp [Reply.refs])
  | satCount f n =>
    apply agrees_get alike (fun k => by rw [satCount_forget])
    apply (agrees_liftM alike).bind
    intro n d' e' alike' _ _
    exact agrees_pure alike' (by simp [Reply.refs])
  | paths f =>
    apply agrees_get alike (fun k => by rw [paths?_forget])
    apply (agrees_liftM alike).bind
    intro ps d' e' alike' _ _
    exact agrees_pure alike' (by simp [Reply.refs])

theorem transcript_eq {known : List Ref} (requests : List Request) (alike : d.Alike e)
    (inside : ∀ r ∈ known, d.Inside r) :
    transcript requests known d = transcript requests known e := by
  induction requests generalizing known d e with
  | nil => rfl
  | cons q qs ih =>
    have agrees := q.run_agrees alike inside
    cases run : q.run known d with
    | error v =>
      have other := agrees.of_error run
      simp only [transcript, run, other]
    | ok a =>
      obtain ⟨a, d'⟩ := a
      obtain ⟨e', other, alike', grown, refs⟩ := agrees.of_ok run
      have size : d'.forget.size = e'.forget.size := by rw [alike'.forget]
      change d'.size = e'.size at size
      have inside' : ∀ r ∈ known ++ a.refs, d'.Inside r := by
        intro r mem
        rcases List.mem_append.mp mem with old | new
        · exact (inside r old).later grown
        · exact refs r new
      simp only [transcript, run, other, size, ih alike' inside']

theorem ofBits_settled {bits : Nat} (made : ofBits bits = .ok d) : d.Settled := by
  unfold ofBits DirectMapped.ofBits at made
  split at made
  · cases made
    intro op r found
    simp [DirectMapped.find?, DirectMapped.empty] at found
  · cases made

theorem ofBits_alike {bits₁ bits₂ : Nat} (made₁ : ofBits bits₁ = .ok d)
    (made₂ : ofBits bits₂ = .ok e) : d.Alike e := by
  refine ⟨?_, ofBits_settled made₁, ofBits_settled made₂⟩
  unfold ofBits DirectMapped.ofBits at made₁ made₂
  split at made₁ <;> split at made₂ <;> cases made₁ <;> cases made₂
  rfl

/-- The computed table is invisible: whatever its size, a sequence of requests gets the same answers,
allocates the same nodes and ends with the same violation, if with any. -/
theorem session_independent_of_bits (requests : List Request) {bits₁ bits₂ : Nat}
    (small₁ : bits₁ ≤ 31) (small₂ : bits₂ ≤ 31) :
    ∃ entries, session bits₁ requests = .ok entries ∧ session bits₂ requests = .ok entries := by
  obtain ⟨d, made₁⟩ := ofBits_ok small₁
  obtain ⟨e, made₂⟩ := ofBits_ok small₂
  refine ⟨transcript requests [] d, ?_, ?_⟩
  · rw [session, made₁]
    rfl
  · rw [session, made₂, transcript_eq requests (ofBits_alike made₁ made₂) (by simp)]
    rfl

/-- One slot, which every entry evicts, and a million slots. -/
theorem session_one_slot : ∃ entries,
    session 0 [.mkVar 1, .mkVar 2, .xor (.answer 0) (.answer 1), .existsVar (.answer 2) 1,
      .mkNode 1 (.answer 2) (.not (.answer 0)), .and (.answer 4) (.answer 2)] = .ok entries ∧
    session 20 [.mkVar 1, .mkVar 2, .xor (.answer 0) (.answer 1), .existsVar (.answer 2) 1,
      .mkNode 1 (.answer 2) (.not (.answer 0)), .and (.answer 4) (.answer 2)] = .ok entries :=
  session_independent_of_bits _ (by decide) (by decide)

end Diagram

end ProgramAnalysis
