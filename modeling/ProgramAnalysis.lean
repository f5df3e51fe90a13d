import ProgramAnalysis.Diagram.Meaning
import ProgramAnalysis.Region
import ProgramAnalysis.Ssa
import ProgramAnalysis.Formula.Atoms
import ProgramAnalysis.Formula.Masks
import ProgramAnalysis.Formula.Meaning
import ProgramAnalysis.Options
import ProgramAnalysis.Linear.Elimination
import ProgramAnalysis.Solver.Query
import ProgramAnalysis.PathFormula.Extend
import ProgramAnalysis.Predicate.Concrete
import ProgramAnalysis.Abstraction.Abstractor
import ProgramAnalysis.Abstraction.Combine
import ProgramAnalysis.Abstraction.Coverage
import ProgramAnalysis.Analysis.Explicit.State
import ProgramAnalysis.Analysis.Explicit.Transfer
import ProgramAnalysis.Analysis.Location
import ProgramAnalysis.Analysis.Sign.Basic
import ProgramAnalysis.Analysis.Sign.State
import ProgramAnalysis.Analysis.Sign.Transfer
import ProgramAnalysis.Analysis.Predicate.Precision
import ProgramAnalysis.Analysis.Predicate.State
import ProgramAnalysis.Analysis.Predicate.Transfer
import ProgramAnalysis.Analysis.Basic
import ProgramAnalysis.Analysis.Composite.Basic
import ProgramAnalysis.Analysis.Composite.Operators
import ProgramAnalysis.Analysis.Peers
import ProgramAnalysis.Analysis.Reached
import ProgramAnalysis.Analysis.Worklist
import ProgramAnalysis.Proofs.Analysis.Values
import ProgramAnalysis.Proofs.Formula.Masks
import ProgramAnalysis.Proofs.PathFormula.Merge
import ProgramAnalysis.Proofs.Predicate.Concrete
import ProgramAnalysis.Proofs.Predicate.Translation
import ProgramAnalysis.Proofs.Abstraction.Memory
import ProgramAnalysis.Proofs.Abstraction.Coverage
import ProgramAnalysis.Proofs.Analysis.Predicates
import ProgramAnalysis.Proofs.Diagram.Quantify
import ProgramAnalysis.Proofs.Diagram.Denotations
import ProgramAnalysis.Proofs.Diagram.Session
import ProgramAnalysis.Proofs.Diagram.Transcript
import ProgramAnalysis.Proofs.Diagram.Partition
import ProgramAnalysis.Proofs.Analysis.Closure
import ProgramAnalysis.Proofs.PathFormula.Strongest
import ProgramAnalysis.Proofs.Diagram.Recomputation
import ProgramAnalysis.Proofs.Analysis.StraightLine
import ProgramAnalysis.Proofs.Abstraction.Precision
import ProgramAnalysis.Proofs.Abstraction.Views
import ProgramAnalysis.Proofs.Abstraction.Reduction
import ProgramAnalysis.Proofs.Analysis.RealizablePaths
import ProgramAnalysis.Proofs.Analysis.CompositeLattice
import ProgramAnalysis.Proofs.Analysis.PredicateLattice
import ProgramAnalysis.Proofs.Analysis.Failures
import ProgramAnalysis.Proofs.Analysis.Specialized
import ProgramAnalysis.Proofs.Solver.Range
import ProgramAnalysis.Proofs.Solver.Limits
import ProgramAnalysis.Proofs.Abstraction.PathCoverage
import ProgramAnalysis.Proofs.PathFormula.Union
import ProgramAnalysis.Proofs.Linear.Complete
import ProgramAnalysis.Proofs.Linear.Exact
import ProgramAnalysis.Proofs.Analysis.Folding
import ProgramAnalysis.Proofs.Analysis.Transfer
import ProgramAnalysis.Proofs.Solver.Projection
import ProgramAnalysis.Proofs.Analysis.JoinedSigns
import ProgramAnalysis.Proofs.Analysis.Semilattice
import ProgramAnalysis.Proofs.Diagram.Counting
import ProgramAnalysis.Proofs.Predicate.Extraction
import ProgramAnalysis.Proofs.Formula.Normal
import ProgramAnalysis.Proofs.Abstraction.SideConditions
import ProgramAnalysis.Proofs.Formula.Atoms
import ProgramAnalysis.Proofs.Table.DirectMapped
import ProgramAnalysis.Proofs.Numeric.Pairing
import ProgramAnalysis.Proofs.Abstraction.Returns
