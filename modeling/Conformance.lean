import Conformance.Session
import Conformance.Proofs.Run
import Conformance.Proofs.Frame
import Conformance.Proofs.Operation
import Conformance.Proofs.Balance
import Conformance.Proofs.Termination
import Conformance.Proofs.Nesting
import Conformance.Proofs.Fragment
import Conformance.Proofs.Closure
import Conformance.Proofs.Link
import Conformance.Proofs.Replay
import Conformance.Proofs.Levels
import Conformance.Proofs.Assumed
import Conformance.Proofs.Deeper
import Conformance.Proofs.Sample
import Conformance.Proofs.Taken
import Conformance.Proofs.ParamPlan
import Conformance.Proofs.Indifference
import Conformance.Proofs.Reasons
import Conformance.Proofs.Cutting
import Conformance.Proofs.Requirements
import Conformance.Proofs.Heirs
import Conformance.Proofs.Anything
import Conformance.Proofs.Alike
import Conformance.Proofs.Pairs
import Conformance.Proofs.Uncut
import Conformance.Proofs.FrontEnds
import Conformance.Proofs.Order
import Conformance.Proofs.Regular
import Conformance.Proofs.Itself
import Conformance.Proofs.Occurrences
import Conformance.Proofs.Setting
import Conformance.Proofs.Settles
import Conformance.Proofs.Solved
import Conformance.Proofs.Reuse
import Conformance.Proofs.Opening
import Conformance.Proofs.Sameness
import Conformance.Proofs.Learning
import Conformance.Proofs.Affirms
import Conformance.Proofs.Complete
import Conformance.Proofs.Receptive
import Conformance.Proofs.Invariance
import Conformance.Proofs.Inherited
import Conformance.Proofs.Decided
import Conformance.Proofs.Scheme
import Conformance.Proofs.Specialization
import Conformance.Proofs.Validated
import Conformance.Proofs.Width
import Conformance.Proofs.CallShapes
import Conformance.Proofs.History
import Conformance.Proofs.Cells
import Conformance.Proofs.Unions
import Conformance.Proofs.Twins
import Conformance.Proofs.TwinLookups
import Conformance.Proofs.TwinRuns
import Conformance.Proofs.TwinParts
import Conformance.Proofs.TwinJudges
import Conformance.Proofs.Reading
import Conformance.Proofs.Copying
import Conformance.Proofs.Forcing
import Conformance.Proofs.Repeated
import Conformance.Proofs.Interchange
import Conformance.Proofs.Precedence
import Conformance.Proofs.Ancestry
import Conformance.Proofs.Polarity
import Conformance.Proofs.Recorded
import Conformance.Proofs.Closed
import Conformance.Proofs.Weighed
import Conformance.Proofs.Linear
import Conformance.Proofs.LinearProtocol
import Conformance.Proofs.Exactness
import Conformance.Proofs.Ranked
import Conformance.Proofs.Gathered
import Conformance.Proofs.DirectedProtocol
import Conformance.Proofs.Filling
import Conformance.Proofs.Coincidence
import Conformance.Proofs.Composition
import Conformance.Proofs.Lineages
import Conformance.Proofs.Layers
import Conformance.Proofs.Chains
import Conformance.Proofs.Equivalence
import Conformance.Proofs.Joins
import Conformance.Proofs.Idempotence
import Conformance.Proofs.StaticMethods
import Conformance.Proofs.Listing
import Conformance.Proofs.Caret
import Conformance.Proofs.Missing
import Conformance.Proofs.Doubles
import Conformance.Proofs.Mirrors
import Conformance.Proofs.Placeholder
import Conformance.Proofs.Places
import Conformance.Proofs.Scopes
import Conformance.Proofs.Renaming
import Conformance.Proofs.GenericHeirs
import Conformance.Proofs.LinearOrder
