import PropertyPath.Bindings.Lemmas
import PropertyPath.Document.Lemmas
import PropertyPath.Path.Render
import PropertyPath.Query
import PropertyPath.Resolve.Lemmas
import PropertyPath.Proofs.Collect
import PropertyPath.Proofs.Pointwise
import PropertyPath.Proofs.Cuts
import PropertyPath.Proofs.Grammar
import PropertyPath.Proofs.Symbols
import PropertyPath.Proofs.Lookups
import PropertyPath.Proofs.Image
import PropertyPath.Proofs.Steps
import PropertyPath.Proofs.Observers
import PropertyPath.Proofs.FirstFailure
import PropertyPath.Proofs.Nested
import PropertyPath.Proofs.Append
import PropertyPath.Proofs.TraceOutcome
import PropertyPath.Proofs.Addressing
import PropertyPath.Proofs.Rounding
import PropertyPath.Proofs.Leaves
import PropertyPath.Proofs.Conversion
import PropertyPath.Proofs.Simulation
import PropertyPath.Proofs.Concatenation
import PropertyPath.Proofs.JsonQuery
import PropertyPath.Proofs.Respelling
import PropertyPath.Proofs.Pruning
import PropertyPath.Proofs.RelatedTraces
import PropertyPath.Proofs.Renaming
import PropertyPath.Proofs.Equality
import PropertyPath.Proofs.Logging
import PropertyPath.Proofs.Preorder
import PropertyPath.Proofs.JsonText
import PropertyPath.Proofs.Messages
import PropertyPath.Proofs.Writes
import PropertyPath.Proofs.Drafts
import PropertyPath.Proofs.Occurrences
import PropertyPath.Proofs.Unescaping
import PropertyPath.Proofs.SegmentJson
