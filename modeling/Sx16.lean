import Sx16.Assembly.Error
import Sx16.Assembly.Listing
import Sx16.Assembly.Resolve
import Sx16.Assembly.State
import Sx16.Config.Block
import Sx16.Config.Letter
import Sx16.Config.Mark
import Sx16.Config.Node
import Sx16.Config.Property
import Sx16.Config.Scalar
import Sx16.Config.Table
import Sx16.FormatError
import Sx16.Image.Basic
import Sx16.Image.Text
import Sx16.Isa.Addressing
import Sx16.Isa.Device
import Sx16.Isa.Opcode
import Sx16.Isa.Register
import Sx16.Isa.Status
import Sx16.Keyed
import Sx16.Link.Error
import Sx16.Link.Layout
import Sx16.Link.Merge
import Sx16.Link.Partial
import Sx16.Link.PlaceOption
import Sx16.Link.Relocate
import Sx16.Main
import Sx16.Object.Module
import Sx16.Object.Printer
import Sx16.Object.Reader
import Sx16.Object.Relocation
import Sx16.Object.Symbol
import Sx16.Processor.Access
import Sx16.Processor.Execute
import Sx16.Processor.Fault
import Sx16.Processor.Interrupt
import Sx16.Processor.Memory
import Sx16.Processor.Report
import Sx16.Processor.State
import Sx16.Proofs.Assembly.Alike
import Sx16.Proofs.Assembly.Effects
import Sx16.Proofs.Assembly.Follows
import Sx16.Proofs.Assembly.Known
import Sx16.Proofs.Assembly.Ordered
import Sx16.Proofs.Assembly.Pending
import Sx16.Proofs.Assembly.Resolved
import Sx16.Proofs.Assembly.Sound
import Sx16.Proofs.Assembly.Steps
import Sx16.Proofs.Assembly.TwoPass
import Sx16.Proofs.Assembly.Written
import Sx16.Proofs.Image
import Sx16.Proofs.Image.ReadBack
import Sx16.Proofs.Image.Rows
import Sx16.Proofs.Link.Added
import Sx16.Proofs.Link.Allocated
import Sx16.Proofs.Link.Contents
import Sx16.Proofs.Link.Files
import Sx16.Proofs.Link.Gathered
import Sx16.Proofs.Link.Joined
import Sx16.Proofs.Link.Linked
import Sx16.Proofs.Link.Parts
import Sx16.Proofs.Link.Pieces
import Sx16.Proofs.Link.Placed
import Sx16.Proofs.Link.Relinked
import Sx16.Proofs.Link.Success
import Sx16.Proofs.Object.Complaint
import Sx16.Proofs.Object.Fields
import Sx16.Proofs.Object.Grammar
import Sx16.Proofs.Object.Lines
import Sx16.Proofs.Object.ReadBack
import Sx16.Proofs.Patch
import Sx16.Proofs.Processor.Addressed
import Sx16.Proofs.Processor.Called
import Sx16.Proofs.Processor.Compared
import Sx16.Proofs.Processor.Decoded
import Sx16.Proofs.Processor.Encoded
import Sx16.Proofs.Processor.Executed
import Sx16.Proofs.Processor.Flags
import Sx16.Proofs.Processor.Frame
import Sx16.Proofs.Processor.Interrupt
import Sx16.Proofs.Processor.Meaning
import Sx16.Proofs.Processor.Pushed
import Sx16.Proofs.Processor.Shifted
import Sx16.Proofs.Processor.Skipped
import Sx16.Proofs.Processor.Stack
import Sx16.Proofs.Processor.Touched
import Sx16.Proofs.Relative.Assembled
import Sx16.Proofs.Relative.Filled
import Sx16.Proofs.Relative.Interchange
import Sx16.Proofs.Relative.Joined
import Sx16.Proofs.Relative.Linked
import Sx16.Proofs.Relative.Operand
import Sx16.Proofs.Relative.Step
import Sx16.Proofs.Relative.Text
import Sx16.Proofs.Run.Conveyed
import Sx16.Proofs.Run.Course
import Sx16.Proofs.Run.Hooks
import Sx16.Proofs.Run.Journal
import Sx16.Proofs.Run.Limited
import Sx16.Proofs.Run.Matched
import Sx16.Proofs.Run.Observed
import Sx16.Proofs.Run.Requests
import Sx16.Proofs.Run.Traffic
import Sx16.Proofs.Sequence
import Sx16.Proofs.Source.Names
import Sx16.Proofs.SymbolTable
import Sx16.Proofs.Text.Lines
import Sx16.Proofs.Text.Numeral
import Sx16.Proofs.Upsert
import Sx16.Run.Dump
import Sx16.Run.Hook
import Sx16.Run.Output
import Sx16.Run.Session
import Sx16.Run.Terminal
import Sx16.Run.Timer
import Sx16.Source.Encoding
import Sx16.Source.Grammar
import Sx16.Source.Statement
import Sx16.Source.Token
import Sx16.Text.Blank
import Sx16.Text.Lines
import Sx16.Text.Numeral
import Sx16.Text.Quoted
import Sx16.Text.Report
import Sx16.Text.Style
import Sx16.Text.Unprintable
import Sx16.Tool.Assembler
import Sx16.Tool.Console
import Sx16.Tool.Emulator
import Sx16.Tool.Linker
import Sx16.Tool.Options
import Sx16.Word
import Sx16.Proofs.Assembly.Reserved
import Sx16.Proofs.Link.Relocatable
import Sx16.Proofs.Source.Renamed
import Sx16.Proofs.Assembly.Renamed
import Sx16.Proofs.Link.Private
import Sx16.Proofs.Link.Joinable
import Sx16.Proofs.Link.Permuted
import Sx16.Proofs.Tool.Delivered
import Sx16.Proofs.Source.Written
import Sx16.Proofs.Assembly.Stopped
import Sx16.Proofs.Source.Spelling
import Sx16.Proofs.SymbolTable.Indexed
