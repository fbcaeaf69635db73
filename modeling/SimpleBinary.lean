import SimpleBinary.Main
import SimpleBinary.Walk.Header
import SimpleBinary.Walk.Indexed
import SimpleBinary.Walk.Trace
import SimpleBinary.Proofs.Text.Utf8
import SimpleBinary.Proofs.Value.Element
import SimpleBinary.Proofs.Bytes.Reading
import SimpleBinary.Proofs.Record.Kept
import SimpleBinary.Proofs.Ir.Build
import SimpleBinary.Proofs.Record.Runs
import SimpleBinary.Proofs.Record.RoundTrip
import SimpleBinary.Proofs.Record.Normal
import SimpleBinary.Proofs.Schema.Types
import SimpleBinary.Proofs.Token.Nesting
import SimpleBinary.Proofs.Schema.Messages
import SimpleBinary.Proofs.Schema.Layout
import SimpleBinary.Proofs.Schema.Accepted
import SimpleBinary.Proofs.Ir.Generated
import SimpleBinary.Proofs.Ir.Compiled
import SimpleBinary.Proofs.Schema.Places
import SimpleBinary.Proofs.Token.Component
import SimpleBinary.Proofs.Walk.Content
import SimpleBinary.Proofs.Walk.Reports
import SimpleBinary.Proofs.Walk.Numbers
import SimpleBinary.Proofs.Walk.Message
import SimpleBinary.Proofs.Walk.Wire
import SimpleBinary.Proofs.Record.Truncated
import SimpleBinary.Proofs.Ir.Described
import SimpleBinary.Proofs.Schema.Parts
import SimpleBinary.Proofs.Schema.Levels
import SimpleBinary.Proofs.Schema.Policy
import SimpleBinary.Proofs.Schema.Blocks
import SimpleBinary.Proofs.Schema.VariablePart
import SimpleBinary.Proofs.Ir.Composites
import SimpleBinary.Proofs.Walk.Course
import SimpleBinary.Proofs.Walk.Story
import SimpleBinary.Proofs.Walk.Told
import SimpleBinary.Proofs.Walk.Newer
import SimpleBinary.Proofs.Schema.Earlier
import SimpleBinary.Proofs.Walk.Parting
import SimpleBinary.Proofs.Walk.Agreement
import SimpleBinary.Proofs.Walk.InRange
import SimpleBinary.Proofs.Schema.Sizes
import SimpleBinary.Proofs.Bytes.Stretch
import SimpleBinary.Proofs.Walk.OwnBytes
import SimpleBinary.Proofs.Ir.Lookup
import SimpleBinary.Proofs.Walk.Header
import SimpleBinary.Proofs.Schema.References
import SimpleBinary.Proofs.Schema.Chains
import SimpleBinary.Proofs.Walk.Ends
import SimpleBinary.Proofs.Walk.Zeros
import SimpleBinary.Proofs.Walk.Behind
import SimpleBinary.Proofs.Ir.Index
import SimpleBinary.Proofs.Schema.Offsets
import SimpleBinary.Proofs.Schema.Passing
import SimpleBinary.Proofs.Schema.Meaning
import SimpleBinary.Proofs.Schema.Order
import SimpleBinary.Proofs.Ir.Links
import SimpleBinary.Proofs.Schema.Pairs
import SimpleBinary.Proofs.Ir.Mutual
import SimpleBinary.Proofs.Ir.Readding
import SimpleBinary.Proofs.Schema.Constants
import SimpleBinary.Proofs.Value.Integer
import SimpleBinary.Proofs.Record.Characters
import SimpleBinary.Proofs.Walk.Names
import SimpleBinary.Proofs.Bytes.Sequence
import SimpleBinary.Proofs.Token.Matching
