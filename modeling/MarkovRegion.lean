import MarkovRegion.Main
import MarkovRegion.Proofs.Analysis.Approximation
import MarkovRegion.Proofs.Checker.Soundness
import MarkovRegion.Smt.Script
import MarkovRegion.Proofs.Analysis.EliminationRuns
import MarkovRegion.Proofs.Analysis.EliminationOrder
import MarkovRegion.Proofs.Smt.Relaxation
import MarkovRegion.Proofs.Analysis.IntervalIteration
import MarkovRegion.Proofs.Analysis.ZeroOne
import MarkovRegion.Proofs.Model.RowSums
import MarkovRegion.Proofs.Checker.History
import MarkovRegion.Proofs.Algebra.Identity
import MarkovRegion.Proofs.Checker.Agreement
import MarkovRegion.Proofs.Checker.Recheck
import MarkovRegion.Proofs.Checker.Leftovers
import MarkovRegion.Proofs.Expression.Arithmetic
import MarkovRegion.Proofs.Expression.RoundTrip
import MarkovRegion.Proofs.Model.Export
import MarkovRegion.Proofs.Region.Setters
import MarkovRegion.Proofs.Logic.Interval
import MarkovRegion.Proofs.Analysis.Directions
import MarkovRegion.Proofs.Checker.Attribution
import MarkovRegion.Proofs.Checker.Failures
import MarkovRegion.Proofs.Analysis.Avoidance
import MarkovRegion.Proofs.Algebra.Composition
import MarkovRegion.Proofs.Algebra.Substitution
import MarkovRegion.Proofs.Smt.LinearSystem
import MarkovRegion.Proofs.Region.Vertices
import MarkovRegion.Proofs.Region.Witnesses
import MarkovRegion.Proofs.Smt.SExpr
import MarkovRegion.Proofs.Smt.Values
import MarkovRegion.Proofs.Smt.Reading
import MarkovRegion.Proofs.Smt.Printing
import MarkovRegion.Proofs.Analysis.Acceptance
import MarkovRegion.Proofs.Checker.ParallelCounts
import MarkovRegion.Proofs.Expression.Degrees
import MarkovRegion.Proofs.Smt.Replies
import MarkovRegion.Proofs.Number.Writing
import MarkovRegion.Proofs.Region.RoundTrip
import MarkovRegion.Proofs.Model.CanonicalRows
import MarkovRegion.Proofs.Analysis.CanonicalSystems
