import PhasedArray.AngleError
import PhasedArray.CommandLine
import PhasedArray.Covariance
import PhasedArray.Cplx
import PhasedArray.Cut
import PhasedArray.Decimal.Layout
import PhasedArray.Decimal.Reading
import PhasedArray.Decimal.Rounded
import PhasedArray.Decimal.Shortest
import PhasedArray.Dyadic
import PhasedArray.Engine
import PhasedArray.Estimator
import PhasedArray.Evaluation
import PhasedArray.Fault
import PhasedArray.Geometry
import PhasedArray.Main
import PhasedArray.Mat
import PhasedArray.Method
import PhasedArray.Number
import PhasedArray.Optimizer
import PhasedArray.Pattern
import PhasedArray.Peaks
import PhasedArray.PhaseShifter
import PhasedArray.Proofs.Ascent
import PhasedArray.Proofs.BasisChange
import PhasedArray.Proofs.BasisIndependence
import PhasedArray.Proofs.Comparison
import PhasedArray.Proofs.Covariance
import PhasedArray.Proofs.DistinctDirections
import PhasedArray.Proofs.Draws
import PhasedArray.Proofs.EffectiveRank
import PhasedArray.Proofs.Eigenbasis
import PhasedArray.Proofs.Energy
import PhasedArray.Proofs.Estimator
import PhasedArray.Proofs.Exact.Complex
import PhasedArray.Proofs.Exact.Extended
import PhasedArray.Proofs.Exact.Finite
import PhasedArray.Proofs.Exact.Ideal
import PhasedArray.Proofs.Exact.Lifted
import PhasedArray.Proofs.Exact.Matrix
import PhasedArray.Proofs.Exact.Reading
import PhasedArray.Proofs.Exact.Scalar
import PhasedArray.Proofs.Exact.Solvers
import PhasedArray.Proofs.Exact.Vector
import PhasedArray.Proofs.FilledSearch
import PhasedArray.Proofs.FiniteEstimates
import PhasedArray.Proofs.FiniteSamples
import PhasedArray.Proofs.GridRecovery
import PhasedArray.Proofs.InformationCriterion
import PhasedArray.Proofs.LastElement
import PhasedArray.Proofs.LeastNoise
import PhasedArray.Proofs.Loading
import PhasedArray.Proofs.LobeSymmetry
import PhasedArray.Proofs.Lobes
import PhasedArray.Proofs.LoneInterferer
import PhasedArray.Proofs.LongerRuns
import PhasedArray.Proofs.MainLobe
import PhasedArray.Proofs.Manifold
import PhasedArray.Proofs.MatchedFilter
import PhasedArray.Proofs.MinimumVariance
import PhasedArray.Proofs.MirroredSnapshots
import PhasedArray.Proofs.MonotoneAscent
import PhasedArray.Proofs.NearestPoint
import PhasedArray.Proofs.NoiseScale
import PhasedArray.Proofs.NoiselessScene
import PhasedArray.Proofs.OptimalPairing
import PhasedArray.Proofs.OptimalWeights
import PhasedArray.Proofs.OptimizerBeam
import PhasedArray.Proofs.OptimizerPlan
import PhasedArray.Proofs.OptimizerRequest
import PhasedArray.Proofs.OptimizerRun
import PhasedArray.Proofs.PairedSweeps
import PhasedArray.Proofs.Peaks
import PhasedArray.Proofs.PhaseProjection
import PhasedArray.Proofs.PhaseQuantization
import PhasedArray.Proofs.QuantizedBeam
import PhasedArray.Proofs.ReflectedDirections
import PhasedArray.Proofs.Rescaling
import PhasedArray.Proofs.ReturningSweeps
import PhasedArray.Proofs.Rotation
import PhasedArray.Proofs.RotationRecovery
import PhasedArray.Proofs.SearchGrid
import PhasedArray.Proofs.SessionAccounting
import PhasedArray.Proofs.SessionIndependence
import PhasedArray.Proofs.Sessions
import PhasedArray.Proofs.SeveralTargets
import PhasedArray.Proofs.SingleSource
import PhasedArray.Proofs.SmallEngine
import PhasedArray.Proofs.SourceCounting
import PhasedArray.Proofs.Spectrum
import PhasedArray.Proofs.SpectrumBounds
import PhasedArray.Proofs.Standard
import PhasedArray.Proofs.SteeredBeam
import PhasedArray.Proofs.StrictRecords
import PhasedArray.Proofs.StrongestPeaks
import PhasedArray.Proofs.Subspace
import PhasedArray.Proofs.SubspaceInvariance
import PhasedArray.Proofs.SweepAccounting
import PhasedArray.Proofs.Trials
import PhasedArray.Proofs.TurnedStart
import PhasedArray.Proofs.UnchargedAscent
import PhasedArray.RandomStream
import PhasedArray.Reading
import PhasedArray.Record
import PhasedArray.Rotation
import PhasedArray.Scalar
import PhasedArray.Scalar.Float
import PhasedArray.SearchGrid
import PhasedArray.Setting
import PhasedArray.Settings
import PhasedArray.Signal
import PhasedArray.Solvers
import PhasedArray.Solvers.Balance
import PhasedArray.Solvers.Columns
import PhasedArray.Solvers.ComplexSteps
import PhasedArray.Solvers.Eigenvalues
import PhasedArray.Solvers.Elimination
import PhasedArray.Solvers.Hermitian
import PhasedArray.Solvers.Numeric
import PhasedArray.Solvers.Pairwise
import PhasedArray.Solvers.RealSteps
import PhasedArray.Solvers.Rows
import PhasedArray.Solvers.Scale
import PhasedArray.SourceCount
import PhasedArray.SpectralSearch
import PhasedArray.Subspace
import PhasedArray.Tensor
import PhasedArray.Text.Blank
import PhasedArray.Text.CodePoint
import PhasedArray.Text.Digit
import PhasedArray.Text.Quoted
import PhasedArray.Text.Signless
import PhasedArray.Validation
import PhasedArray.Weights
import PhasedArray.Word
