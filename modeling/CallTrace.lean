import CallTrace.Analysis
import CallTrace.Build
import CallTrace.CallGraph
import CallTrace.CallText
import CallTrace.CallTree
import CallTrace.CallTree.Render
import CallTrace.CallTree.Unfold
import CallTrace.CallTree.Walk
import CallTrace.Classifier
import CallTrace.Classifier.AnnotationUse
import CallTrace.Classifier.Naming
import CallTrace.Classifier.Spring
import CallTrace.Codebase
import CallTrace.Codec.Facts
import CallTrace.Codec.Graph
import CallTrace.Codec.Snapshot
import CallTrace.Codec.Tree
import CallTrace.CommandLine
import CallTrace.CommandLine.Address
import CallTrace.CommandLine.Arguments
import CallTrace.CommandLine.Display
import CallTrace.Cycle
import CallTrace.Dispatch
import CallTrace.Engine
import CallTrace.Engine.Report
import CallTrace.EntryPoint
import CallTrace.FactSource
import CallTrace.Files
import CallTrace.GraphStore
import CallTrace.GraphStore.InStep
import CallTrace.Hierarchy
import CallTrace.Http
import CallTrace.Http.MediaType
import CallTrace.Http.Query
import CallTrace.Json.Decode
import CallTrace.Json.Glyph
import CallTrace.Json.Reading
import CallTrace.Json.Token
import CallTrace.Json.Value
import CallTrace.Layer
import CallTrace.Main
import CallTrace.Proofs.Analysis.Trees
import CallTrace.Proofs.Build.Balance
import CallTrace.Proofs.Build.Content
import CallTrace.Proofs.Build.EntryPoints
import CallTrace.Proofs.Build.Metadata
import CallTrace.Proofs.Build.Named
import CallTrace.Proofs.Build.Order
import CallTrace.Proofs.Build.Padding
import CallTrace.Proofs.Build.Passes
import CallTrace.Proofs.Build.Pruned
import CallTrace.Proofs.CallGraph.Agreement
import CallTrace.Proofs.CallGraph.Content
import CallTrace.Proofs.CallGraph.Growth
import CallTrace.Proofs.CallGraph.Indices
import CallTrace.Proofs.CallGraph.Reach
import CallTrace.Proofs.CallGraph.Runs
import CallTrace.Proofs.CallTree.Cycles
import CallTrace.Proofs.CallTree.Depth
import CallTrace.Proofs.CallTree.Occurrence
import CallTrace.Proofs.CallTree.Paths
import CallTrace.Proofs.CallTree.Render
import CallTrace.Proofs.CallTree.Unfold
import CallTrace.Proofs.CallTree.Walk
import CallTrace.Proofs.Classifier.Flattening
import CallTrace.Proofs.Classifier.Grammar
import CallTrace.Proofs.Classifier.Layers
import CallTrace.Proofs.Classifier.Pruned
import CallTrace.Proofs.Codebase.Pruned
import CallTrace.Proofs.Codebase.Reordering
import CallTrace.Proofs.Codec.Snapshot
import CallTrace.Proofs.Cycle.Closure
import CallTrace.Proofs.Cycle.Components
import CallTrace.Proofs.Cycle.Least
import CallTrace.Proofs.Cycle.Search
import CallTrace.Proofs.Dispatch.Calls
import CallTrace.Proofs.Dispatch.EntryPoints
import CallTrace.Proofs.Dispatch.Expansion
import CallTrace.Proofs.Dispatch.Spelling
import CallTrace.Proofs.Engine.Loading
import CallTrace.Proofs.Engine.Overlap
import CallTrace.Proofs.Engine.Sessions
import CallTrace.Proofs.Engine.Trees
import CallTrace.Proofs.FactSource.Collection
import CallTrace.Proofs.Firsts
import CallTrace.Proofs.Hierarchy.Content
import CallTrace.Proofs.Hierarchy.Implementors
import CallTrace.Proofs.Hierarchy.Pruned
import CallTrace.Proofs.Hierarchy.Targets
import CallTrace.Proofs.Json.Accepted
import CallTrace.Proofs.Json.Decode
import CallTrace.Proofs.Json.Reading
import CallTrace.Proofs.Json.Scan
import CallTrace.Proofs.Resolution.CallText
import CallTrace.Proofs.Resolution.Lookup
import CallTrace.Proofs.Resolution.Meaning
import CallTrace.Proofs.Resolution.Receiver
import CallTrace.Proofs.Snapshot.Capture
import CallTrace.Proofs.Snapshot.Faults
import CallTrace.Proofs.Snapshot.Fidelity
import CallTrace.Proofs.Snapshot.Rebuild
import CallTrace.Proofs.Snapshot.Recover
import CallTrace.Proofs.Snapshot.Restore
import CallTrace.Proofs.Snapshot.RoundTrip
import CallTrace.Proofs.Snapshot.Text
import CallTrace.Proofs.Sort
import CallTrace.Proofs.Text.Dotted
import CallTrace.Proofs.Text.Trim
import CallTrace.Proofs.Text.Words
import CallTrace.Proofs.TypeName.Declaration
import CallTrace.Proofs.TypeName.Settled
import CallTrace.Resolution
import CallTrace.Scope
import CallTrace.Settings
import CallTrace.Signature
import CallTrace.Snapshot
import CallTrace.Snapshot.Restore
import CallTrace.Sort
import CallTrace.SortedMap
import CallTrace.Text.Blank
import CallTrace.Text.Dotted
import CallTrace.Text.Number
import CallTrace.Text.Word
import CallTrace.TypeName
