import WeakForm.Binary64
import WeakForm.Element.Registry
import WeakForm.Expression
import WeakForm.Record
import WeakForm.Proofs.Constants
import WeakForm.Proofs.Pairwise
import WeakForm.Proofs.IndexMaps
import WeakForm.Proofs.Chains
import WeakForm.Proofs.Contraction
import WeakForm.Proofs.Renumbering
import WeakForm.Proofs.Balance
import WeakForm.Proofs.Rounds
import WeakForm.Proofs.Termination
import WeakForm.Proofs.SummationConvention
import WeakForm.Proofs.NormalForm
import WeakForm.Proofs.SlotSums
import WeakForm.Proofs.Valuation
import WeakForm.Proofs.Value
import WeakForm.Proofs.ContractionValue
import WeakForm.Proofs.PassValues
import WeakForm.Proofs.TermAlgebra
import WeakForm.Proofs.ChainValue
import WeakForm.Proofs.FormValue
import WeakForm.Proofs.RoundValue
import WeakForm.Proofs.SingleChain
import WeakForm.Proofs.Preservation
import WeakForm.Proofs.RenamingInvariance
import WeakForm.Proofs.Relabelling
import WeakForm.Proofs.Reordering
import WeakForm.Proofs.Failure
import WeakForm.Proofs.SharedTensors
import WeakForm.Proofs.AuxiliaryMarking
import WeakForm.Proofs.Acceptance
import WeakForm.Proofs.FirstOccurrences
import WeakForm.Proofs.Axes
import WeakForm.Proofs.LiteralIntegrals
import WeakForm.Proofs.ReferenceTensors
import WeakForm.Proofs.TensorEntries
import WeakForm.Proofs.GeometryTensors
import WeakForm.Proofs.TensorRepresentation
import WeakForm.Proofs.Compilation
import WeakForm.Proofs.FormalDerivatives
import WeakForm.Proofs.PolynomialSpaces
import WeakForm.Proofs.ReferenceRegions
import WeakForm.Proofs.RuleExactness
import WeakForm.Proofs.FacetMaps
import WeakForm.Proofs.DefaultDegree
import WeakForm.Proofs.ContractionTest
import WeakForm.Proofs.ExplicitSums
import WeakForm.Proofs.DerivativeChains
import WeakForm.Proofs.BuiltForms
import WeakForm.Proofs.PullbackSides
import WeakForm.Proofs.SlotPatterns
import WeakForm.Proofs.NumberingScan
import WeakForm.Proofs.CanonicalNumbering
import WeakForm.Proofs.InternalSums
import WeakForm.Proofs.RelabellingWindow
import WeakForm.Proofs.FirstRelabelling
import WeakForm.Proofs.DeterminantProducts
import WeakForm.Proofs.SignatureTensors
import WeakForm.Proofs.NumberedAxes
import WeakForm.Proofs.JacobiWeight
import WeakForm.Proofs.ThreeTermRecurrence
import WeakForm.Proofs.JacobiRecurrence
import WeakForm.Proofs.GaussExactness
import WeakForm.Proofs.CellRules
import WeakForm.Proofs.DerivativeTerms
import WeakForm.Proofs.FreshDerivatives
import WeakForm.Proofs.BoundValues
import WeakForm.Proofs.ProductRule
import WeakForm.Proofs.PairwiseGroups
import WeakForm.Proofs.Registration
import WeakForm.Proofs.Unisolvence
import WeakForm.Proofs.NodalBases
import WeakForm.Proofs.RulePoints
import WeakForm.Proofs.EvaluationBounds
import WeakForm.Proofs.IndexDifferences
import WeakForm.Proofs.IteratedDerivatives
import WeakForm.Proofs.ExponentCounts
import WeakForm.Proofs.TensorPositions
import WeakForm.Proofs.Permutations
