import ProgramAnalysis.Abstraction.Abstractor
import ProgramAnalysis.Proofs.Formula.Masks
import ProgramAnalysis.Proofs.Predicate.Concrete
import ProgramAnalysis.Proofs.Solver.AllSat

/-! The state in which abstractions are computed. Its parts are used one at a time, and what is used leaves
the options and the limits as they are while the regions grow. -/
namespace ProgramAnalysis

open Attempt (Ensures)

namespace Abstractor

variable {α : Type} {a b c : Abstractor} {bad : Violation → Prop}
  {fail : Failure → Abstractor → Prop} {good : α → Abstractor → Prop}

/-- The abstractor over these predicates that has done nothing yet. -/
def idle (o : AnalysisOptions) (reg : Registry) : Abstractor :=
  ⟨reg, ⟨o.limits, {}⟩, ⟨o.formula, o.abstraction⟩, {}, {}⟩

theorem exists_start (o : AnalysisOptions) :
    ∃ d, Registry.empty = .ok ⟨d, []⟩ ∧ start o = .ok (idle o ⟨d, []⟩) := by
  obtain ⟨d, empty⟩ := Registry.exists_empty
  refine ⟨d, empty, ?_⟩
  rw [start, empty]
  rfl

/-- The same options and limits over grown regions. -/
structure Grows (a b : Abstractor) : Prop where
  registry : a.registry.Grows b.registry
  settings : b.settings = a.settings
  limits : b.solver.limits = a.solver.limits

theorem Grows.refl (valid : a.registry.Valid) : a.Grows a := ⟨.refl valid, rfl, rfl⟩

theorem Grows.trans (first : a.Grows b) (second : b.Grows c) : a.Grows c :=
  ⟨first.registry.trans second.registry, second.settings.trans first.settings,
    second.limits.trans first.limits⟩

def withDiagram (a : Abstractor) (d : Diagram) : Abstractor :=
  { a with registry := ⟨d, a.registry.predicates⟩ }

def withSolver (a : Abstractor) (s : Solver) : Abstractor := { a with solver := s }

theorem grows_withDiagram {d : Diagram} (grown : a.registry.diagram.Grows d) :
    a.Grows (a.withDiagram d) := ⟨⟨rfl, grown⟩, rfl, rfl⟩

theorem grows_withSolver {s : Solver} (valid : a.registry.Valid) (same : s.limits = a.solver.limits) :
    a.Grows (a.withSolver s) := ⟨.refl valid, rfl, same⟩

theorem registryOnly_run {act : RegistryM α} {x : α} {reg : Registry}
    (run : act a.registry = .ok (x, reg)) :
    (registryOnly act).run a = .ok (.ok x, { a with registry := reg }) := by
  unfold registryOnly Attempt.lift Checked.zoom
  simp [ExceptT.run_lift, Functor.map, StateT.map, run, bind, pure, Except.bind, Except.pure]

theorem regionsOnly_ensures {act : DiagramM α} : Ensures (regionsOnly act) a bad fail good ↔
    Checked.Ensures act a.registry.diagram bad fun x d => good x (a.withDiagram d) := by
  unfold regionsOnly registryOnly Registry.regions
  rw [Attempt.ensures_lift, Checked.ensures_zoom, Checked.ensures_zoom]
  rfl

theorem solve_ensures {act : Prover.RegionSolverM α} : Ensures (solve act) a bad fail good ↔
    Ensures act (a.solver, a.registry.diagram) bad
      (fun e s => fail (.solver e) ((a.withSolver s.1).withDiagram s.2))
      fun x s => good x ((a.withSolver s.1).withDiagram s.2) := by
  unfold solve
  rw [Attempt.ensures_mapFailure, Attempt.ensures_zoom]
  rfl

theorem ask_ensures {act : SolverM α} : Ensures (ask act) a bad fail good ↔
    Ensures act a.solver bad (fun e s => fail (.solver e) (a.withSolver s))
      fun x s => good x (a.withSolver s) := by
  unfold ask
  rw [solve_ensures, Prover.solver_ensures]
  rfl

theorem count_ensures {f : AbstractionCounters → AbstractionCounters} {good : Unit → Abstractor → Prop} :
    Ensures (count f) a bad fail good ↔ good () { a with counters := f a.counters } := Iff.rfl

theorem recordIn_ensures {f : AbstractionMemory → AbstractionMemory} {good : Unit → Abstractor → Prop} :
    Ensures (recordIn f) a bad fail good ↔ good () { a with memory := f a.memory } := Iff.rfl

/-- Nothing more is remembered. -/
structure Quiet (a b : Abstractor) : Prop extends a.Grows b where
  memory : b.memory = a.memory

theorem Quiet.trans (first : a.Quiet b) (second : b.Quiet c) : a.Quiet c :=
  ⟨first.toGrows.trans second.toGrows, second.memory.trans first.memory⟩

theorem Quiet.refl (valid : a.registry.Valid) : a.Quiet a := ⟨.refl valid, rfl⟩

theorem quiet_with {solver : Solver} {d : Diagram} (a : Abstractor)
    (limits : solver.limits = a.solver.limits) (grown : a.registry.diagram.Grows d) :
    a.Quiet ((a.withSolver solver).withDiagram d) :=
  ⟨⟨⟨rfl, grown⟩, rfl, limits⟩, rfl⟩

theorem Quiet.withCounters (quiet : a.Quiet b) (n : AbstractionCounters) :
    a.Quiet { b with counters := n } :=
  ⟨⟨quiet.registry, quiet.settings, quiet.limits⟩, quiet.memory⟩

theorem ask_decides {bad : Violation → Prop} {good : α → Prop} {act : SolverM α}
    (valid : a.registry.Valid) (decides : Ensures act a.solver bad (fun _ t => t.limits = a.solver.limits)
      fun answer t => t.limits = a.solver.limits ∧ good answer) :
    Ensures (ask act) a (fun _ => True) (fun _ b => a.Quiet b)
      fun answer b => a.Quiet b ∧ good answer := by
  rw [ask_ensures]
  exact (decides.weaken fun _ _ => trivial).imp
    (fun answer s ⟨same, told⟩ => ⟨⟨grows_withSolver valid same, rfl⟩, told⟩)
    fun _ s same => ⟨grows_withSolver valid same, rfl⟩

end Abstractor

end ProgramAnalysis
