import EcmaScope.Builder
import EcmaScope.Proofs.Agreement
import EcmaScope.Proofs.Balance
import EcmaScope.Proofs.Clauses
import EcmaScope.Proofs.Closing
import EcmaScope.Proofs.Consistency
import EcmaScope.Proofs.Definitions
import EcmaScope.Proofs.Equivariance
import EcmaScope.Proofs.EvalCalls
import EcmaScope.Proofs.ForeignKeys
import EcmaScope.Proofs.Housing
import EcmaScope.Proofs.Journeys
import EcmaScope.Proofs.Lasting
import EcmaScope.Proofs.Layout
import EcmaScope.Proofs.Ledger
import EcmaScope.Proofs.Moves
import EcmaScope.Proofs.Nesting
import EcmaScope.Proofs.Openings
import EcmaScope.Proofs.Optimism
import EcmaScope.Proofs.Phrases
import EcmaScope.Proofs.Placement
import EcmaScope.Proofs.Preorder
import EcmaScope.Proofs.Prologues
import EcmaScope.Proofs.Reading
import EcmaScope.Proofs.Renaming
import EcmaScope.Proofs.Resolution
import EcmaScope.Proofs.Roles
import EcmaScope.Proofs.RoundTrip
import EcmaScope.Proofs.Runs
import EcmaScope.Proofs.ScopeTree
import EcmaScope.Proofs.Tables
import EcmaScope.Proofs.Tagged
import EcmaScope.Proofs.Through
import EcmaScope.Proofs.Twins
import EcmaScope.Proofs.Uses
import EcmaScope.Proofs.Walks
import EcmaScope.Proofs.Writes
import EcmaScope.Reading.Tree
import EcmaScope.Tree.Map
import EcmaScope.Tree.Outline
import EcmaScope.Writing
import EcmaScope.Proofs.Certainty
import EcmaScope.Proofs.Taints
import EcmaScope.Proofs.Deeds
import EcmaScope.Proofs.LastScope
import EcmaScope.Proofs.ImplicitGlobals
import EcmaScope.Proofs.Around
import EcmaScope.Proofs.Capture
import EcmaScope.Proofs.Spans
import EcmaScope.Proofs.Regions
import EcmaScope.Proofs.SelfReference
import EcmaScope.Proofs.LoopHeads
import EcmaScope.Proofs.Strictness
import EcmaScope.Proofs.Imports
import EcmaScope.Proofs.MixedPositions
import EcmaScope.Proofs.DeclaredVariables
import EcmaScope.Proofs.Initialization
import EcmaScope.Proofs.NodeScopes
import EcmaScope.Proofs.Leftovers
import EcmaScope.Proofs.ImpliedStrictness
import EcmaScope.Proofs.Repetitions
import EcmaScope.Proofs.ClosedScopes
import EcmaScope.Proofs.Destructuring
