import CallImpact.Document.Kind
import CallImpact.Graph.Build
import CallImpact.Limits.Environment
import CallImpact.Limits.Syntax
import CallImpact.Proofs.Graph.Chains
import CallImpact.Proofs.Graph.Correlation
import CallImpact.Proofs.Walk.Closed
import CallImpact.Session
import CallImpact.Ascending
import CallImpact.Walk.EdgeList
import CallImpact.Proofs.DigestStore.Merging
import CallImpact.Proofs.Walk.Renaming
import CallImpact.Proofs.Graph.Digests
import CallImpact.Proofs.Graph.StoredWalks
import CallImpact.Proofs.Session.Table
import CallImpact.Proofs.Graph.Regrouping
import CallImpact.Proofs.Graph.Renumbering
import CallImpact.Proofs.Json.RoundTrip
import CallImpact.Proofs.Json.Canonical
import CallImpact.Proofs.Document.Entity
import CallImpact.Proofs.Document.Graph
import CallImpact.Proofs.Document.RoundTrip
import CallImpact.Proofs.Document.Nesting
import CallImpact.Proofs.DigestStore.Reports
import CallImpact.Proofs.Walk.Ending
import CallImpact.Proofs.Walk.Questions
import CallImpact.Proofs.Walk.Signals
import CallImpact.Proofs.Walk.Depths
import CallImpact.Proofs.Walk.Coverage
import CallImpact.Proofs.Graph.Queries
import CallImpact.Proofs.Graph.Refeeding
import CallImpact.Proofs.Graph.Pruning
import CallImpact.Proofs.Graph.RepeatedFunctions
import CallImpact.Proofs.Graph.SharedSignatures
import CallImpact.Proofs.ChainTree.Insertion
import CallImpact.Proofs.ChainTree.Merging
import CallImpact.Proofs.Graph.NestedScopes
import CallImpact.Proofs.Walk.HeardAnswers
import CallImpact.Proofs.Walk.Trees
import CallImpact.Proofs.DigestStore.Insertion
import CallImpact.Proofs.Graph.Batches
import CallImpact.Proofs.Graph.ChangedLines
import CallImpact.Proofs.Graph.Stars
import CallImpact.Proofs.Naming.Signatures
import CallImpact.Proofs.Limits.Settings
import CallImpact.Proofs.Limits.Documents
import CallImpact.Proofs.Text.Utf8
import CallImpact.Proofs.Toml.Numbers
import CallImpact.Proofs.Document.Records
import CallImpact.Proofs.Document.Spellings
import CallImpact.Proofs.Span.Lines
import CallImpact.Proofs.Span.Points
import CallImpact.Proofs.Walk.Alignment
