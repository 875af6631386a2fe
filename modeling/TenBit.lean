import TenBit.Main
import TenBit.Proofs.Machine.Unpacking
import TenBit.Proofs.Machine.Numerals
import TenBit.Proofs.Source.Pieces
import TenBit.Proofs.Output.Rows
import TenBit.Proofs.Program.Outline
import TenBit.Proofs.Report.Growth
import TenBit.Proofs.Statement.Refusal
import TenBit.Storage.Disk
import TenBit.Proofs.Memory.Layout
import TenBit.Proofs.Memory.Encoding
import TenBit.Proofs.Program.Assembly
import TenBit.Proofs.Program.Disassembly
import TenBit.Proofs.Macro.Lines
import TenBit.Proofs.Program.Agreement
import TenBit.Proofs.Program.Names
import TenBit.Proofs.Program.Symbols
import TenBit.Proofs.Program.Acceptance
import TenBit.Proofs.Program.Shift
import TenBit.Proofs.Macro.Blocks
import TenBit.Proofs.Storage.Path
import TenBit.Proofs.Storage.Disk
import TenBit.Proofs.Storage.Front
import TenBit.Proofs.Job.Run
import TenBit.Proofs.Job.Build
import TenBit.Proofs.Job.Cleanup
import TenBit.Proofs.Job.Delivery
import TenBit.Proofs.Output.Object
import TenBit.Proofs.Memory.Uses
import TenBit.Proofs.Output.Externals
import TenBit.Proofs.Program.Alike
import TenBit.Proofs.Program.Interleaving
import TenBit.Proofs.Source.Rewriting
import TenBit.Proofs.Statement.Rereading
import TenBit.Proofs.Macro.Reexpansion
import TenBit.Proofs.Program.Reassembly
import TenBit.Proofs.Program.Defects
import TenBit.Proofs.Program.Halting
import TenBit.Proofs.Macro.Grammar
import TenBit.Proofs.Program.DefiningLines
import TenBit.Proofs.Program.Renaming
import TenBit.Proofs.Program.Extents
import TenBit.Proofs.Output.Listing
import TenBit.Proofs.Storage.Changes
import TenBit.Proofs.Job.Foresight
import TenBit.Proofs.Job.Repetition
import TenBit.Proofs.Job.Independence
import TenBit.Proofs.Statement.Items
import TenBit.Proofs.Text.Words
import TenBit.Proofs.Statement.Labels
import TenBit.Proofs.Statement.WellFormed
import TenBit.Proofs.Text.Decimal
import TenBit.Proofs.Statement.Operands
import TenBit.Proofs.Statement.Writing
import TenBit.Proofs.Machine.Codec
import TenBit.Proofs.Source.Decoding
import TenBit.Proofs.Symbol.History
import TenBit.Proofs.Statement.Numbers
import TenBit.Proofs.Storage.Components
import TenBit.Proofs.Job.OutputNames
