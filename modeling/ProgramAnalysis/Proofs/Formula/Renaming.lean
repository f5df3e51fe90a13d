import ProgramAnalysis.Proofs.Formula.Vocabulary

/-! Renaming the variables of formulas. A renaming that can be undone tells different formulas apart, so
the builders of connectives, which drop repeated arguments, do the same before and after it. -/
namespace ProgramAnalysis

variable {L : Vocabulary} {g h : TermVar → TermVar}

theorem Term.mapVars_comp (g h : TermVar → TermVar) (t : Term) :
    (t.mapVars g).mapVars h = t.mapVars (h ∘ g) := by
  induction t with
  | const c => rfl
  | var x => rfl
  | neg t ih => exact congrArg Term.neg ih
  | bitNot t ih => exact congrArg Term.bitNot ih
  | binary op a b iha ihb => rw [mapVars, mapVars, mapVars, iha, ihb]

theorem Term.mapVars_eq_self (fixes : ∀ x, L.var x → g x = x) {t : Term} (within : t.Within L) :
    t.mapVars g = t := by
  induction t with
  | const c => rfl
  | var x => exact congrArg Term.var (fixes x within)
  | neg t ih => exact congrArg Term.neg (ih within)
  | bitNot t ih => exact congrArg Term.bitNot (ih within)
  | binary op a b iha ihb => rw [mapVars, iha within.1, ihb within.2]

namespace Formula

theorem mapVarsAll_eq_map (g : TermVar → TermVar) (fs : List Formula) :
    mapVarsAll g fs = fs.map (mapVars g) := by
  induction fs with
  | nil => rfl
  | cons f fs ih => rw [mapVarsAll, ih, List.map_cons]

theorem withinAll_iff {fs : List Formula} : WithinAll L fs ↔ ∀ f ∈ fs, f.Within L := by
  induction fs with
  | nil => simp [WithinAll]
  | cons f fs ih => rw [WithinAll, ih, List.forall_mem_cons]

mutual

theorem mapVars_comp (g h : TermVar → TermVar) (f : Formula) :
    (f.mapVars g).mapVars h = f.mapVars (h ∘ g) := by
  cases f with
  | bool => rfl
  | prop => rfl
  | atom r a b => rw [mapVars, mapVars, mapVars, Term.mapVars_comp, Term.mapVars_comp]
  | not f => exact congrArg Formula.not (mapVars_comp g h f)
  | nary c fs => exact congrArg (Formula.nary c) (mapVarsAll_comp g h fs)
  | iff a b => rw [mapVars, mapVars, mapVars, mapVars_comp g h a, mapVars_comp g h b]

theorem mapVarsAll_comp (g h : TermVar → TermVar) (fs : List Formula) :
    mapVarsAll h (mapVarsAll g fs) = mapVarsAll (h ∘ g) fs := by
  cases fs with
  | nil => rfl
  | cons f fs =>
    rw [mapVarsAll, mapVarsAll, mapVarsAll, mapVars_comp g h f, mapVarsAll_comp g h fs]

end

mutual

theorem mapVars_eq_self (fixes : ∀ x, L.var x → g x = x) (f : Formula) (within : f.Within L) :
    f.mapVars g = f := by
  cases f with
  | bool => rfl
  | prop => rfl
  | atom r a b =>
    rw [mapVars, Term.mapVars_eq_self fixes within.1, Term.mapVars_eq_self fixes within.2]
  | not f => exact congrArg Formula.not (mapVars_eq_self fixes f within)
  | nary c fs => exact congrArg (Formula.nary c) (mapVarsAll_eq_self fixes fs within)
  | iff a b =>
    rw [mapVars, mapVars_eq_self fixes a within.1, mapVars_eq_self fixes b within.2]

theorem mapVarsAll_eq_self (fixes : ∀ x, L.var x → g x = x) (fs : List Formula)
    (within : WithinAll L fs) : mapVarsAll g fs = fs := by
  cases fs with
  | nil => rfl
  | cons f fs =>
    rw [mapVarsAll, mapVars_eq_self fixes f within.1, mapVarsAll_eq_self fixes fs within.2]

end

/-- The renaming tells the formulas of the vocabulary apart. -/
def Separates (g : TermVar → TermVar) (L : Vocabulary) : Prop :=
  ∀ {a b : Formula}, a.Within L → b.Within L → a.mapVars g = b.mapVars g → a = b

theorem separates_of_cancel (cancels : ∀ x, L.var x → h (g x) = x) : Separates g L := by
  intro a b withinA withinB same
  rw [← mapVars_eq_self (g := h ∘ g) cancels a withinA, ← mapVars_comp, same, mapVars_comp,
    mapVars_eq_self (g := h ∘ g) cancels b withinB]

section Builders

variable (separates : Separates g L) {acc fs : List Formula} {f : Formula}
include separates

theorem map_addNew (known : ∀ a ∈ acc, a.Within L) (new : f.Within L) :
    (addNew acc f).map (mapVars g) = addNew (acc.map (mapVars g)) (f.mapVars g) := by
  have there : (acc.map (mapVars g)).contains (f.mapVars g) = acc.contains f := by
    rw [Bool.eq_iff_iff, List.contains_iff_mem, List.contains_iff_mem, List.mem_map]
    constructor
    · rintro ⟨a, mem, same⟩
      exact separates (known a mem) new same ▸ mem
    · exact fun mem => ⟨f, mem, rfl⟩
  unfold addNew
  rw [there]
  split
  · rfl
  · simp

theorem map_foldl_addNew (known : ∀ a ∈ acc, a.Within L) (new : ∀ a ∈ fs, a.Within L) :
    (fs.foldl addNew acc).map (mapVars g) =
      (fs.map (mapVars g)).foldl addNew (acc.map (mapVars g)) := by
  induction fs generalizing acc with
  | nil => rfl
  | cons f fs ih =>
    obtain ⟨here, rest⟩ := List.forall_mem_cons.mp new
    rw [List.foldl_cons, List.map_cons, List.foldl_cons, ← map_addNew separates known here]
    refine ih (fun a mem => ?_) rest
    rcases mem_addNew.mp mem with old | rfl
    · exact known a old
    · exact here

theorem map_collect (c : Connective) (known : ∀ a ∈ acc, a.Within L) (new : ∀ a ∈ fs, a.Within L) :
    (collect c acc fs).map (List.map (mapVars g)) =
      collect c (acc.map (mapVars g)) (fs.map (mapVars g)) := by
  induction fs generalizing acc with
  | nil => rfl
  | cons f fs ih =>
    obtain ⟨here, rest⟩ := List.forall_mem_cons.mp new
    -- Whatever is not unfolded is added as it is.
    have added : (collect c (addNew acc f) fs).map (List.map (mapVars g)) =
        collect c (addNew (acc.map (mapVars g)) (f.mapVars g)) (fs.map (mapVars g)) := by
      rw [← map_addNew separates known here]
      refine ih (fun a mem => ?_) rest
      rcases mem_addNew.mp mem with old | rfl
      · exact known a old
      · exact here
    cases f with
    | bool v =>
      rw [List.map_cons, mapVars, collect, collect]
      split
      · exact ih known rest
      · rfl
    | nary c' gs =>
      rw [List.map_cons, mapVars, collect, collect]
      split
      · have inner : ∀ a ∈ gs, a.Within L := withinAll_iff.mp here
        rw [mapVarsAll_eq_map, ← map_foldl_addNew separates known inner]
        refine ih (fun a mem => ?_) rest
        exact (mem_foldl_addNew.mp mem).elim (known a) (inner a)
      · exact added
    | prop x => exact added
    | atom r a b => exact added
    | not f => exact added
    | iff a b => exact added

theorem mapVars_join (c : Connective) (within : ∀ f ∈ fs, f.Within L) :
    (join c fs).mapVars g = join c (fs.map (mapVars g)) := by
  have collected : (collect c [] fs).map (List.map (mapVars g)) = collect c [] (fs.map (mapVars g)) :=
    map_collect separates c (by simp) within
  unfold join
  rw [← collected]
  match collect c [] fs with
  | none => rfl
  | some [] => rfl
  | some [f] => rfl
  | some (f :: f' :: fs) => exact congrArg (Formula.nary c) (mapVarsAll_eq_map g _)

end Builders

end Formula

/-! ### Indices -/

namespace TermVar

variable (s s' : SsaMap) (x : TermVar)

theorem uninstantiate_instantiate : (x.instantiate s).uninstantiate = x.uninstantiate := by
  unfold instantiate
  split <;> rfl

theorem instantiate_instantiate : (x.instantiate s).instantiate s' = x.instantiate s := by
  rcases x with ⟨name, index | i⟩ <;> rfl

theorem index_instantiate : (x.instantiate s).index ≠ none := by
  rcases x with ⟨name, index | i⟩ <;> exact nofun

end TermVar

/-- A variable without an index has its value at the index of the map. -/
def Assignment.current (m : Assignment) (s : SsaMap) : Assignment where
  number
    | ⟨x, none⟩ => m.number ⟨x, some (s.index x)⟩
    | ⟨x, some i⟩ => m.number ⟨x, some i⟩
  truth := m.truth

namespace Formula

variable (s : SsaMap) (f : Formula)

theorem uninstantiate_instantiate : (f.instantiate s).uninstantiate = f.uninstantiate := by
  rw [instantiate, uninstantiate, mapVars_comp]
  exact congrArg (mapVars · f) (funext (TermVar.uninstantiate_instantiate s))

theorem uninstantiate_bare (bare : f.Within Vocabulary.any.bare) : f.uninstantiate = f := by
  apply mapVars_eq_self _ f bare
  rintro ⟨x, index⟩ rfl
  rfl

theorem instantiate_instantiate (s' : SsaMap) :
    (f.instantiate s).instantiate s' = f.instantiate s := by
  rw [instantiate, instantiate, mapVars_comp]
  exact congrArg (mapVars · f) (funext (TermVar.instantiate_instantiate s s'))

theorem instantiate_indexed : (f.instantiate s).Within Vocabulary.any.indexed := by
  apply (within_mapVars f).mpr
  apply f.within_any.mono
  exact ⟨fun _ h => h, fun x _ => TermVar.index_instantiate s x, fun _ h => h⟩

theorem holds_instantiate_current (ops : Operators) (m : Assignment) :
    (f.instantiate s).holds ops m = f.holds ops (m.current s) := by
  have number : (fun x => m.number (x.instantiate s)) = (m.current s).number := by
    funext ⟨x, index⟩
    cases index <;> rfl
  rw [instantiate, holds_mapVars, number]
  rfl

/-- Instantiation puts the variables at the indices of a map in the place of those without an index.
Without the indices the formula is as before, and none of its variables is left to be instantiated. -/
theorem instantiate_substitutes (s : SsaMap) (f : Formula) :
    (f.instantiate s).uninstantiate = f.uninstantiate ∧
    (f.Within Vocabulary.any.bare → (f.instantiate s).uninstantiate = f) ∧
    (f.instantiate s).Within Vocabulary.any.indexed ∧
    (∀ s', (f.instantiate s).instantiate s' = f.instantiate s) ∧
    ∀ ops m, (f.instantiate s).holds ops m = f.holds ops (m.current s) := by
  refine ⟨uninstantiate_instantiate s f, fun bare => ?_, instantiate_indexed s f,
    instantiate_instantiate s f, holds_instantiate_current s f⟩
  rw [uninstantiate_instantiate, uninstantiate_bare f bare]

/-- A variable that is not in the map. -/
theorem instantiate_substitutes_unknown :
    (Formula.atom .lt (.symbolic "x") (.const 5)).Within Vocabulary.any.bare ∧
    (Formula.atom .lt (.symbolic "x") (.const 5)).instantiate .empty =
      .atom .lt (.indexed "x" 1) (.const 5) ∧
    (Formula.atom .lt (.indexed "x" 1) (.const 5)).uninstantiate =
      .atom .lt (.symbolic "x") (.const 5) := by
  have bare : (Formula.atom .lt (.symbolic "x") (.const 5)).Within Vocabulary.any.bare :=
    ⟨rfl, trivial⟩
  have made : (Formula.atom .lt (.symbolic "x") (.const 5)).instantiate .empty =
      .atom .lt (.indexed "x" 1) (.const 5) := rfl
  refine ⟨bare, made, ?_⟩
  rw [← made]
  exact (instantiate_substitutes .empty _).2.1 bare

end Formula

end ProgramAnalysis
