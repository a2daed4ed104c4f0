import InfraModule.Diagnostic.Json
import InfraModule.Document
import InfraModule.Event.Collect
import InfraModule.Options.Yaml
import InfraModule.Tree.Copy
import InfraModule.Proofs.Parse.Binding
import InfraModule.Proofs.Parse.Reading
import InfraModule.Proofs.Parse.Session
import InfraModule.Proofs.Resolve.Acceptance
import InfraModule.Proofs.Resolve.RoundTrip
import InfraModule.Proofs.Tree.History
import InfraModule.Proofs.Tree.Dormancy
import InfraModule.Proofs.Tree.Frame
import InfraModule.Tree.Write
import InfraModule.Proofs.Resolve.NormalForm
import InfraModule.Proofs.Parse.Freshness
import InfraModule.Proofs.Parse.Naming
import InfraModule.Proofs.Tree.Refusal
import InfraModule.Proofs.Parse.Framing
import InfraModule.Proofs.Tree.Image
import InfraModule.Proofs.Tree.Clone
import InfraModule.Proofs.Tree.Separation
import InfraModule.Proofs.Parse.Meter
import InfraModule.Proofs.Parse.Termination
import InfraModule.Proofs.Tree.Graft
import InfraModule.Proofs.Resolve.Context
import InfraModule.Proofs.Parse.Context
import InfraModule.Proofs.Parse.Pruning
import InfraModule.Proofs.Tree.Keys
import InfraModule.Proofs.Resolve.Discard
import InfraModule.Proofs.Parse.Mapping
import InfraModule.Proofs.Tree.Traversal
import InfraModule.Proofs.Tree.Alike
import InfraModule.Proofs.Tree.Rank
import InfraModule.Proofs.Resolve.Rank
import InfraModule.Proofs.Parse.Depth
import InfraModule.Proofs.Parse.Elements
import InfraModule.Proofs.Parse.Placement
import InfraModule.Proofs.Parse.Reordering
import InfraModule.Proofs.Parse.Limit
import InfraModule.Proofs.Parse.Span
import InfraModule.Proofs.Event.Balance
import InfraModule.Proofs.Event.Collect
import InfraModule.Proofs.Event.Quoted
import InfraModule.Proofs.Parse.Literal
import InfraModule.Proofs.Tree.Writing
