import StreamingFft.BitOrder.Lemmas
import StreamingFft.BitOrder.Word
import StreamingFft.Core.Listing
import StreamingFft.Core.Recipe
import StreamingFft.Main
import StreamingFft.Text.Depth
import StreamingFft.Proofs.BitOrder.Action
import StreamingFft.Proofs.BitOrder.Cycles
import StreamingFft.Proofs.Reordering.Schedule
import StreamingFft.Proofs.Reordering.Memory
import StreamingFft.Proofs.Core.Reachable
import StreamingFft.Proofs.Core.Invariant
import StreamingFft.Proofs.Vhdl.Token
import StreamingFft.Proofs.Vhdl.Reading
import StreamingFft.Proofs.Vhdl.Signals
import StreamingFft.Proofs.Reordering.Network
import StreamingFft.Proofs.Vhdl.Instances
import StreamingFft.Proofs.Core.Assignments
import StreamingFft.Proofs.Core.Hierarchy
import StreamingFft.Proofs.Core.Phase
import StreamingFft.Proofs.Core.Alignment
import StreamingFft.Proofs.Core.IndexMaps
import StreamingFft.Proofs.Core.Entities
import StreamingFft.Proofs.Core.Generation
import StreamingFft.Proofs.Vhdl.Instantiation
import StreamingFft.Proofs.Core.Components
import StreamingFft.Proofs.Numeric.Rounding
import StreamingFft.Proofs.TwiddleTable.Words
import StreamingFft.Proofs.TwiddleTable.Contents
import StreamingFft.Proofs.Vhdl.Comment
import StreamingFft.Proofs.Vhdl.Items
import StreamingFft.Proofs.TwiddleTable.Module
import StreamingFft.Proofs.Core.Manifests
import StreamingFft.Proofs.Core.DigitReversal
import StreamingFft.Proofs.Core.Rebuilding
import StreamingFft.Proofs.Text.Layout
import StreamingFft.Proofs.Core.Configuration
import StreamingFft.Proofs.Vhdl.Declared
import StreamingFft.Proofs.Vhdl.Wiring
import StreamingFft.Proofs.Core.Names
import StreamingFft.Proofs.Core.Connections
import StreamingFft.Proofs.Core.Netlist
import StreamingFft.Proofs.Command.Delivery
import StreamingFft.Proofs.Core.Likeness
import StreamingFft.Proofs.Core.Context
import StreamingFft.Proofs.Core.Exchange
import StreamingFft.Proofs.BitOrder.Faithful
import StreamingFft.Proofs.Core.Buffers
import StreamingFft.Proofs.Core.Latency
import StreamingFft.Proofs.TwiddleTable.Decoding
import StreamingFft.Proofs.TwiddleTable.Acceptance
import StreamingFft.Proofs.Core.Factors
import StreamingFft.Proofs.BitOrder.Entries
import StreamingFft.Proofs.Core.Declarations
import StreamingFft.Proofs.Manifest.History
import StreamingFft.Proofs.Core.Unions
import StreamingFft.Proofs.TwiddleTable.Requests
import StreamingFft.Proofs.Vhdl.Selection
import StreamingFft.Proofs.Core.Multipliers
import StreamingFft.Proofs.Text.Indentation
import StreamingFft.Proofs.Vhdl.Grammar
import StreamingFft.Proofs.Core.Description
import StreamingFft.Proofs.BitOrder.Caption
import StreamingFft.Proofs.Core.Header
import StreamingFft.Proofs.Core.Clauses
