import ProgramAnalysis.Proofs.Analysis.Lattice
import ProgramAnalysis.Proofs.Analysis.SignLattice

/-! Signs and known values of variables as join semilattices. A state of signs is compared with the
record that holds it in memory, a map and a mark that no value is possible. Operations on records stay
within the records of states, so none of them stores a sign that says nothing or a contradiction. -/
namespace ProgramAnalysis

/-- A partial order from `bottom` to `top` with least upper bounds, on the elements that are `own`. -/
structure JoinSemilattice {α : Type} (own : α → Prop) (le : α → α → Bool) (join : α → α → α)
    (bottom top : α) : Prop where
  own_bottom : own bottom
  own_top : own top
  own_join : ∀ {a b}, own a → own b → own (join a b)
  refl : ∀ {a}, own a → le a a = true
  trans : ∀ {a b c}, own a → own b → own c → le a b = true → le b c = true → le a c = true
  antisymm : ∀ {a b}, own a → own b → le a b = true → le b a = true → a = b
  bottom_le : ∀ {a}, own a → le bottom a = true
  le_top : ∀ {a}, own a → le a top = true
  le_join_left : ∀ {a b}, own a → own b → le a (join a b) = true
  le_join_right : ∀ {a b}, own a → own b → le b (join a b) = true
  join_le : ∀ {a b c}, own a → own b → own c → le a c = true → le b c = true →
    le (join a b) c = true

namespace Sign

variable {s t u : Sign}

theorem le_refl (s : Sign) : s.le s = true := le_iff.mpr fun _ inside => inside

theorem le_trans (first : s.le t = true) (second : t.le u = true) : s.le u = true := by
  rw [le_iff] at first second ⊢
  exact fun a inside => second a (first a inside)

theorem le_antisymm (le : s.le t = true) (ge : t.le s = true) : s = t := by
  rw [le_iff] at le ge
  exact ext_contains fun a => Bool.eq_iff_iff.mpr ⟨le a, ge a⟩

theorem join_le (left : s.le u = true) (right : t.le u = true) : (s.join t).le u = true := by
  rw [le_iff] at left right ⊢
  intro a inside
  rw [contains_join, Bool.or_eq_true] at inside
  cases inside with
  | inl inside => exact left a inside
  | inr inside => exact right a inside

end Sign

namespace SignState

variable {st st' st'' : SignState}

theorem le_refl (st : SignState) : st.le st = true := le_iff.mpr fun _ => Sign.le_refl _

theorem le_trans (first : st.le st' = true) (second : st'.le st'' = true) : st.le st'' = true := by
  rw [le_iff] at first second ⊢
  exact fun x => Sign.le_trans (first x) (second x)

theorem le_antisymm (le : st.le st' = true) (ge : st'.le st = true) : st = st' := by
  rw [le_iff] at le ge
  exact ext_get fun x => Sign.le_antisymm (le x) (ge x)

theorem le_top (st : SignState) : st.le top = true := le_iff.mpr fun _ => Sign.le_top _

theorem join_le (left : st.le st'' = true) (right : st'.le st'' = true) :
    (st.join st').le st'' = true := by
  rw [le_iff] at left right ⊢
  intro x
  rw [get_join]
  exact Sign.join_le (left x) (right x)

theorem semilattice : JoinSemilattice (fun _ => True) le join bottom top where
  own_bottom := trivial
  own_top := trivial
  own_join _ _ := trivial
  refl _ := le_refl _
  trans _ _ _ := le_trans
  antisymm _ _ := le_antisymm
  bottom_le _ := rfl
  le_top _ := le_top _
  le_join_left _ _ := le_join_left _ _
  le_join_right _ _ := le_join_right _ _
  join_le _ _ _ := join_le

end SignState

namespace ExplicitState

variable {e f g : ExplicitState}

theorem le_antisymm (le : e.le f = true) (ge : f.le e = true) : e = f := by
  cases e with
  | bottom =>
    cases f with
    | bottom => rfl
    | known n => cases ge
  | known m =>
    cases f with
    | bottom => cases le
    | known n =>
      rw [le_known_iff] at le ge
      have same : m = n := by
        apply NameMap.ext_get?
        intro x
        apply Option.ext
        exact fun v => ⟨ge x v, le x v⟩
      rw [same]

theorem le_top (e : ExplicitState) : e.le top = true := by
  cases e with
  | bottom => rfl
  | known m => rfl

theorem join_le (left : e.le g = true) (right : f.le g = true) : (e.join f).le g = true := by
  cases e with
  | bottom => exact right
  | known m =>
    cases f with
    | bottom => exact left
    | known n =>
      cases g with
      | bottom => cases left
      | known k =>
        rw [le_known_iff] at left right
        apply le_known_iff.mpr
        intro x v found
        have mem := NameMap.mem_of_get? (left x v found)
        have agrees : decide (n.get? x = some v) = true := decide_eq_true (right x v found)
        exact NameMap.get?_of_mem (List.mem_filter.mpr ⟨mem, agrees⟩)

theorem semilattice : JoinSemilattice (fun _ => True) le join bottom top where
  own_bottom := trivial
  own_top := trivial
  own_join _ _ := trivial
  refl _ := le_refl _
  trans _ _ _ := le_trans
  antisymm _ _ := le_antisymm
  bottom_le _ := rfl
  le_top _ := le_top _
  le_join_left _ _ := (le_join _ _).1
  le_join_right _ _ := (le_join _ _).2
  join_le _ _ _ := join_le

end ExplicitState

/-! ### Records -/

/-- The record of a state: any signs under any names, and whether no value is possible. -/
structure SignRecord where
  signs : NameMap Sign
  isBottom : Bool

namespace SignRecord

def top : SignRecord := ⟨∅, false⟩

def bottom : SignRecord := ⟨∅, true⟩

def get (r : SignRecord) (x : String) : Sign :=
  if r.isBottom then .bottom else (r.signs.get? x).getD .top

def set (r : SignRecord) (x : String) (s : Sign) : SignRecord :=
  if s = .bottom then bottom
  else if s = .top then { r with signs := r.signs.erase x }
  else if r.isBottom then r
  else { r with signs := r.signs.insert x s }

def forget (r : SignRecord) (x : String) : SignRecord := { r with signs := r.signs.erase x }

def le (r r' : SignRecord) : Bool :=
  if r.isBottom then true
  else if r'.isBottom then false
  else r'.signs.entries.all fun (x, s) => (r.get x).le s

def join (r r' : SignRecord) : SignRecord :=
  if r.isBottom then r'
  else if r'.isBottom then r
  else r.signs.entries.foldl (fun acc (x, s) => acc.set x (s.join (r'.get x))) top

/-- The records that operations make. -/
inductive Built : SignRecord → Prop where
  | top : Built top
  | bottom : Built bottom
  | set {r : SignRecord} (x : String) (s : Sign) : Built r → Built (r.set x s)
  | forget {r : SignRecord} (x : String) : Built r → Built (r.forget x)
  | join {r r' : SignRecord} : Built r → Built r' → Built (r.join r')

/-- No stored sign says nothing or is a contradiction, and without a possible value nothing is stored. -/
structure Canonical (r : SignRecord) : Prop where
  proper : ∀ x s, r.signs.get? x = some s → s.IsProper
  empty : r.isBottom = true → r.signs = ∅

end SignRecord

namespace SignState

def record : SignState → SignRecord
  | .bottom => .bottom
  | .known m => ⟨m.signs, false⟩

variable {st st' : SignState}

theorem record_injective (same : st.record = st'.record) : st = st' := by
  cases st with
  | bottom =>
    cases st' with
    | bottom => rfl
    | known n => cases congrArg SignRecord.isBottom same
  | known m =>
    cases st' with
    | bottom => cases congrArg SignRecord.isBottom same
    | known n =>
      have signs : m.signs = n.signs := congrArg SignRecord.signs same
      cases m
      cases n
      cases signs
      rfl

theorem canonical_record (st : SignState) : st.record.Canonical := by
  cases st with
  | bottom => exact { proper := nofun, empty := fun _ => rfl }
  | known m =>
    exact { proper := fun _ _ found => m.proper _ (NameMap.mem_of_get? found), empty := nofun }

theorem get_record (st : SignState) (x : String) : st.record.get x = st.get x := by
  cases st with
  | bottom => rfl
  | known m => rfl

theorem record_set (st : SignState) (x : String) (s : Sign) :
    (st.set x s).record = st.record.set x s := by
  cases st with
  | bottom =>
    simp only [SignRecord.set, record, set]
    split
    · rfl
    · split <;> rfl
  | known m =>
    by_cases none : s = .bottom
    · simp [SignRecord.set, record, set, none]
    · by_cases any : s = .top
      · subst any
        rfl
      · simp [SignRecord.set, record, set, none, any, SignMap.insert]

theorem record_forget (st : SignState) (x : String) : (st.forget x).record = st.record.forget x := by
  cases st with
  | bottom => rfl
  | known m => rfl

theorem le_record (st st' : SignState) : st.record.le st'.record = st.le st' := by
  cases st with
  | bottom => rfl
  | known m =>
    cases st' with
    | bottom => rfl
    | known n => rfl

theorem record_join (st st' : SignState) : (st.join st').record = st.record.join st'.record := by
  cases st with
  | bottom => rfl
  | known m =>
    cases st' with
    | bottom => rfl
    | known n =>
      have step (acc : SignState) (e : String × Sign) :
          acc.record.set e.1 (e.2.join (n.get e.1)) = (acc.set e.1 (e.2.join (n.get e.1))).record :=
        (record_set _ _ _).symm
      exact (List.foldl_hom record step).symm

end SignState

namespace SignRecord

variable {r : SignRecord}

theorem Built.exists_state (built : r.Built) : ∃ st : SignState, st.record = r := by
  induction built with
  | top => exact ⟨.top, rfl⟩
  | bottom => exact ⟨.bottom, rfl⟩
  | set x s _ ih =>
    obtain ⟨st, rfl⟩ := ih
    exact ⟨st.set x s, SignState.record_set st x s⟩
  | forget x _ ih =>
    obtain ⟨st, rfl⟩ := ih
    exact ⟨st.forget x, SignState.record_forget st x⟩
  | join _ _ ih ih' =>
    obtain ⟨st, rfl⟩ := ih
    obtain ⟨st', rfl⟩ := ih'
    exact ⟨st.join st', SignState.record_join st st'⟩

theorem Built.is_canonical (built : r.Built) : r.Canonical := by
  obtain ⟨st, rfl⟩ := built.exists_state
  exact st.canonical_record

end SignRecord

/-- An encoding that keeps the order and the joins makes a semilattice of the encoded elements. -/
theorem JoinSemilattice.encoded {α β : Type} {le : α → α → Bool} {join : α → α → α} {bottom top : α}
    {le' : β → β → Bool} {join' : β → β → β} {own : β → Prop} {encode : α → β}
    (laws : JoinSemilattice (fun _ => True) le join bottom top)
    (decode : ∀ {b}, own b → ∃ a, encode a = b) (same_le : ∀ a a', le' (encode a) (encode a') = le a a')
    (same_join : ∀ a a', join' (encode a) (encode a') = encode (join a a'))
    (own_bottom : own (encode bottom)) (own_top : own (encode top))
    (own_join : ∀ {b b'}, own b → own b' → own (join' b b')) :
    JoinSemilattice own le' join' (encode bottom) (encode top) where
  own_bottom := own_bottom
  own_top := own_top
  own_join := own_join
  refl ownA := by
    obtain ⟨a, rfl⟩ := decode ownA
    simpa only [same_le] using laws.refl trivial
  trans ownA ownB ownC := by
    obtain ⟨a, rfl⟩ := decode ownA
    obtain ⟨b, rfl⟩ := decode ownB
    obtain ⟨c, rfl⟩ := decode ownC
    simpa only [same_le] using laws.trans trivial trivial trivial
  antisymm ownA ownB below above := by
    obtain ⟨a, rfl⟩ := decode ownA
    obtain ⟨b, rfl⟩ := decode ownB
    rw [same_le] at below above
    rw [laws.antisymm trivial trivial below above]
  bottom_le ownA := by
    obtain ⟨a, rfl⟩ := decode ownA
    simpa only [same_le] using laws.bottom_le trivial
  le_top ownA := by
    obtain ⟨a, rfl⟩ := decode ownA
    simpa only [same_le] using laws.le_top trivial
  le_join_left ownA ownB := by
    obtain ⟨a, rfl⟩ := decode ownA
    obtain ⟨b, rfl⟩ := decode ownB
    simpa only [same_join, same_le] using laws.le_join_left trivial trivial
  le_join_right ownA ownB := by
    obtain ⟨a, rfl⟩ := decode ownA
    obtain ⟨b, rfl⟩ := decode ownB
    simpa only [same_join, same_le] using laws.le_join_right trivial trivial
  join_le ownA ownB ownC := by
    obtain ⟨a, rfl⟩ := decode ownA
    obtain ⟨b, rfl⟩ := decode ownB
    obtain ⟨c, rfl⟩ := decode ownC
    simpa only [same_join, same_le] using laws.join_le trivial trivial trivial

namespace SignRecord

theorem semilattice : JoinSemilattice Built le join bottom top :=
  SignState.semilattice.encoded Built.exists_state SignState.le_record
    (fun st st' => (SignState.record_join st st').symm) .bottom .top .join

end SignRecord

/-- What operations do to a state they do to its record, and different states have different records. -/
structure SignState.Recorded (st : SignState) : Prop where
  is_canonical : st.record.Canonical
  get : ∀ x, st.record.get x = st.get x
  set : ∀ x s, (st.set x s).record = st.record.set x s
  forget : ∀ x, (st.forget x).record = st.record.forget x
  le : ∀ st', st.record.le st'.record = st.le st'
  join : ∀ st', (st.join st').record = st.record.join st'.record
  injective : ∀ st', st.record = st'.record → st = st'

theorem SignState.recorded (st : SignState) : st.Recorded where
  is_canonical := st.canonical_record
  get := st.get_record
  set := st.record_set
  forget := st.record_forget
  le := st.le_record
  join := st.record_join
  injective _ := record_injective

/-- Signs of variables and known values of variables are join semilattices. So are the records that
operations make from the top and the bottom state, all of them canonical. -/
theorem variable_states_are_semilattices :
    JoinSemilattice (fun _ => True) SignState.le SignState.join .bottom .top ∧
    JoinSemilattice (fun _ => True) ExplicitState.le ExplicitState.join .bottom .top ∧
    JoinSemilattice SignRecord.Built SignRecord.le SignRecord.join .bottom .top ∧
    (∀ r : SignRecord, r.Built → r.Canonical) ∧
    ∀ st : SignState, st.Recorded :=
  ⟨SignState.semilattice, ExplicitState.semilattice, SignRecord.semilattice,
    fun _ built => built.is_canonical, SignState.recorded⟩

end ProgramAnalysis
