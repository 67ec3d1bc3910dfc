import Dez.Words
import Dez.Arrays
import Dez.Buffer
import Dez.TwoRuns
import Dez.OnceMap
import Dez.BoundedStack
import Dez.Loop
import Dez.Runs
import Dez.CString
import Dez.Printf
import Dez.ProgramFile
import Dez.Instruction
import Dez.Assembler.Lexer
import Dez.Assembler.SymbolTable
import Dez.Assembler.Operand
import Dez.Assembler.Parser
import Dez.Assembler.Progress
import Dez.Assembler.Passes
import Dez.Assembler.Tokens
import Dez.Assembler.Positions
import Dez.Assembler.Scan
import Dez.Assembler.InText
import Dez.Assembler.Grammar
import Dez.Assembler.Layout
import Dez.Assembler.Spelling
import Dez.Assembler.Lines
import Dez.Assembler.LabelLines
import Dez.Assembler.Readings
import Dez.Assembler.Counting
import Dez.Assembler.Termination
import Dez.Assembler.Truncation
import Dez.Assembler.Encoding
import Dez.Assembler.Symbols
import Dez.Assembler.Entries
import Dez.Assembler.Cache
import Dez.Assembler.SymbolMap
import Dez.Assembler.Labels
import Dez.Assembler.Immediates
import Dez.Assembler.NumberFormats
import Dez.Assembler.Agreement
import Dez.Assembler.Output
import Dez.Assembler.Format
import Dez.Assembler.Literals
import Dez.Assembler.Undefined
import Dez.Assembler.Definitions
import Dez.Assembler.Determinism
import Dez.Assembler.StringData
import Dez.Assembler.LabelOperands
import Dez.Assembler.ConstantLines
import Dez.Assembler.Leftovers
import Dez.Assembler.Reuse
import Dez.Machine.Memory
import Dez.Machine.Instructions
import Dez.Machine.Effects
import Dez.Machine.Step
import Dez.Machine.Run
import Dez.Machine.Jumps
import Dez.Machine.Loader
import Dez.Machine.Writes
import Dez.Machine.Boot
import Dez.Machine.Safety
import Dez.Machine.Image
import Dez.Machine.Stack
import Dez.Machine.Stores
import Dez.Machine.Frame
import Dez.Machine.Failures
import Dez.Machine.Arithmetic
import Dez.Machine.FailedLoads
import Dez.Machine.Protection
import Dez.Machine.ByteView
import Dez.Machine.PrintedStrings
import Dez.Execution.Words
import Dez.Execution.ThreeOperands
import Dez.Disassembler
import Dez.DisasmTool.LabelScan
import Dez.DisasmTool.Labels
import Dez.DisasmTool.Listing
import Dez.DisasmTool.Window
import Dez.DisasmTool.ProgramListing
import Dez.Reassembly
import Dez.Execution.SecondOperand
import Dez.Readback
import Dez.ShownFields
import Dez.Faithfulness
import Dez.Toolchain
import Dez.StringStorage
import Dez.Acceptance
import Dez.LiteralPlaces
import Dez.StringLookup
import Dez.PartialRuns
import Dez.Machine.Main
import Dez.Semantics.Program
import Dez.Semantics.Refinement
import Dez.Semantics.Loaded
import Dez.Semantics.Compile
import Dez.Semantics.Source
import Dez.Machine.Calls
import Dez.Machine.Debug
import Dez.Machine.Statistics
import Dez.Machine.FastPath
import Dez.Machine.Forward
import Dez.DisasmTool.Search
import Dez.Assembler.HexFile
import Dez.Assembler.Main
import Dez.DisasmTool.Main
import Dez.Assembler.Diagnostics
import Dez.Assembler.InstructionLines
import Dez.DisasmTool.RoundTrip
import Dez.Assembler.Concatenation
import Dez.Semantics.Linking
