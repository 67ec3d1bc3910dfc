import Dez.Disassembler
import Dez.DisasmTool.LabelScan
import Dez.Printf
import Dez.Machine.Loader

/-! The listing of a binary file by `disasm_tool.c`. -/
namespace Dez.DisasmTool
open Assembler Disassembler Machine

/-- `output_format_t` -/
inductive OutputFormat
  | simple | detailed | assembly | hex | objdump | hexdump
  deriving DecidableEq, Repr

/-- `disasm_options_t`; the search directories belong to the file system. -/
structure DisasmOptions where
  format : OutputFormat
  showAddresses : Bool
  showLineNumbers : Bool
  showSymbols : Bool
  showHeaders : Bool
  startAddr : Word
  count : Word
  filename : List Byte
  symbolFile : Option (List Byte)

/-- The options before `parse_arguments` has read any, with a file name. -/
def defaultOptions (filename : List Byte) : DisasmOptions :=
  ⟨.simple, false, false, false, false, 0, 0, filename, none⟩

/-- What the tool prints. -/
inductive Printed
  | printf (format : String) (args : List Arg)
  deriving DecidableEq

def Printed.text : Printed → List Byte
  | printf format args => printfText format args

/-- `fread` of so many words. -/
def readWords : ℕ → List Byte → List Word
  | 0, _ => []
  | count + 1, file =>
    match freadWord file with
    | some (word, rest) => word :: readWords count rest
    | none => []

/-- `read_binary_file`: what it prints on `stderr`, and the instructions, if it succeeds; `malloc`
says which sizes can be had. -/
def readBinaryFile (malloc : ℕ → Bool) (filename : List Byte) :
    Option (List Byte) → List Printed × Option (List Word)
  | none => ([.printf "Error: Cannot open file '%s'\n" [.str filename]], none)
  | some file =>
    let fileSize := file.length
    if fileSize = 0 then ([.printf "Error: File '%s' is empty\n" [.str filename]], none)
    else
      let warning := if fileSize % 4 ≠ 0 then
          [.printf "Warning: File size (%ld) is not a multiple of %d bytes\n"
            [.num fileSize, .num 4]]
        else []
      let count : Word := BitVec.ofNat 32 (fileSize / 4)
      if malloc (count.toNat * 4) = false then
        (warning ++ [.printf "Error: Memory allocation failed for %u instructions\n"
          [.num count.toNat]], none)
      else
        let instructions := readWords count.toNat file
        let short := if instructions.length ≠ count.toNat then
            [.printf "Warning: Expected %u instructions, read %zu\n"
              [.num count.toNat, .num instructions.length]]
          else []
        (warning ++ short, some instructions)

def printColumnHeaders (format : OutputFormat) (showLineNumbers : Bool) : List Printed :=
  let row (columns : String) (names : List String) : Printed :=
    if showLineNumbers then
      .printf ("%-4s " ++ columns) (.str (bytes "Line") :: names.map fun name => .str (bytes name))
    else .printf columns (names.map fun name => .str (bytes name))
  match format with
  | .objdump | .detailed =>
    [row "%-10s %-12s %s\n" ["Address", "Instruction", "Disassembly"],
      .printf "----------------------------------------------------\n" []]
  | .hexdump =>
    [row "%-10s %-20s %-8s %s\n" ["Address", "Hex Bytes", "ASCII", "Disassembly"],
      .printf "--------------------------------------------------------\n" []]
  | .hex =>
    [row "%-10s %-12s %s\n" ["Address", "Hex", "Disassembly"],
      .printf "----------------------------------------------------\n" []]
  | .simple | .assembly =>
    [row "%-10s %s\n" ["Address", "Disassembly"],
      .printf "------------------------------------\n" []]

/-- The tables of `create_sample_symbol_table`, one call after the other. -/
def createSampleSymbolTable : SymbolTable :=
  let table := (symbolTableDefine symbolTableInit (bytes "main") 0x00000000#32 1).2.1
  let table := (symbolTableDefine table (bytes "loop_start") 0x00000010#32 5).2.1
  let table := (symbolTableDefine table (bytes "loop_end") 0x00000020#32 10).2.1
  let table := (symbolTableDefineConstant table (bytes "ARRAY_SIZE") 10#32 2).2.1
  (symbolTableDefineString table (bytes "msg_hello") (bytes "Hello, World!") 3).2.1

/-- The messages of `symbol_table_add`. -/
def printMessage : Message → List Printed
  | .symbolTableFull => [.printf "Error: Symbol table full\n" []]
  | .alreadyDefined name line =>
    [.printf "Error: Symbol '%s' already defined at line %d\n" [.str name, .num line]]
  -- the others are the parser's and the assembler's
  | _ => []

/-- `load_symbol_table`, with the contents of the assembly file that `find_assembly_file` finds: the
table, and what is printed while the file is read. -/
def loadSymbolTable (asmFile : Option (List Byte)) : SymbolTable × List Printed :=
  match parseAssemblyFile asmFile with
  | some (table, messages) =>
    (if table.symbols ≠ [] then table else createSampleSymbolTable, messages.flatMap printMessage)
  | none => (createSampleSymbolTable, [])

/-- Nothing that `symbol_table_add` prints is left out. -/
theorem printMessage_add {table : SymbolTable} {name : List Byte} {type : SymbolType}
    {address value : Word} {text : Option (List Byte)} {number : ℕ} :
    ∀ message ∈ (symbolTableAdd table name type address value text number).2.2,
      printMessage message ≠ [] := by
  intro message hmessage
  unfold symbolTableAdd at hmessage
  by_cases hroom : table.symbols.length < 1024
  · rw [dif_pos hroom] at hmessage
    dsimp only at hmessage
    cases hfound : (symbolTableFind table name).1 with
    | none =>
      rw [hfound] at hmessage
      cases hmessage
    | some existing =>
      rw [hfound] at hmessage
      obtain rfl := List.mem_singleton.mp hmessage
      exact List.cons_ne_nil _ _
  · rw [dif_neg hroom] at hmessage
    obtain rfl := List.mem_singleton.mp hmessage
    exact List.cons_ne_nil _ _

theorem printMessage_scanFile (file : List Byte) :
    ∀ message ∈ (scanFile file).printed, printMessage message ≠ [] := by
  unfold scanFile
  induction fileLines file using List.reverseRecOn with
  | nil => exact List.forall_mem_nil _
  | append_singleton lines line ih =>
    rw [List.foldl_append, List.foldl_cons, List.foldl_nil, scanLine]
    dsimp only
    split
    · exact ih
    · rw [List.forall_mem_append]
      exact ⟨ih, printMessage_add⟩
    · exact ih

def symbolTypeName : SymbolType → List Byte
  | .label => bytes "LABEL"
  | .string => bytes "STRING"
  | .variable => bytes "VARIABLE"
  | .constant => bytes "CONSTANT"

def symbolTablePrint (table : SymbolTable) : List Printed :=
  [.printf "\n=== Symbol Table ===\n" [],
    .printf "%-20s %-10s %-10s %-10s %s\n"
      (["Name", "Type", "Address", "Value", "String"].map fun name => .str (bytes name)),
    .printf "------------------------------------------------------------\n" []] ++
    table.symbols.map (fun sym => .printf "%-20s %-10s 0x%08X 0x%08X %s\n"
      [.str sym.name.chars, .str (symbolTypeName sym.type), .num sym.address.toNat,
        .num sym.value.toNat, .str sym.stringValue.chars]) ++ [.printf "\n" []]

def findSymbolName (table : Option SymbolTable) (address : Word) : Option (List Byte) := do
  let table ← table
  let symbol ← table.symbols.find? fun symbol => symbol.address = address
  return symbol.name.chars

def printSymbolInfo (table : Option SymbolTable) (address : Word) : List Printed :=
  match findSymbolName table address with
  | some name => [.printf " <%s>" [.str name]]
  | none => []

def getAsciiRepresentation (instruction : Word) : List Byte :=
  [3, 2, 1, 0].map fun k =>
    let b := byteOf instruction k
    if 32 ≤ b.toNat ∧ b.toNat ≤ 126 then b else ch '.'

/-- One call of `disassemble_instruction` in the loop over the file. -/
structure Line where
  instruction : Word
  address : Word
  lineNum : Word
  deriving DecidableEq

def printAddressAndSymbol (address : Word) (table : Option SymbolTable) : List Printed :=
  .printf "0x%08X" [.num address.toNat] :: printSymbolInfo table address

/-- `disassemble_instruction` -/
def disassembleInstruction (options : DisasmOptions) (table : Option SymbolTable) (line : Line) :
    List Printed :=
  let disasm := (dezDisasmInstruction line.instruction 256).getD []
  let number : List Printed :=
    if options.showLineNumbers then [.printf "%4u: " [.num line.lineNum.toNat]] else []
  let opcode := decodeOpcode line.instruction
  match options.format with
  | .simple | .assembly =>
    if options.showAddresses then
      number ++ printAddressAndSymbol line.address table ++ [.printf ": %s\n" [.str disasm]]
    else
      number ++ .printf "%s" [.str disasm] :: printSymbolInfo table line.address ++
        [.printf "\n" []]
  | .hex =>
    number ++ printAddressAndSymbol line.address table ++
      [.printf ": 0x%08X  %s\n" [.num line.instruction.toNat, .str disasm]]
  | .objdump =>
    number ++ printAddressAndSymbol line.address table ++
      [.printf ": %08x  %s\n" [.num line.instruction.toNat, .str disasm]]
  | .hexdump =>
    number ++ .printf "%08x  %02x %02x %02x %02x  |%s|  %s"
      [.num line.address.toNat, .num (byteOf line.instruction 3).toNat,
        .num (byteOf line.instruction 2).toNat, .num (byteOf line.instruction 1).toNat,
        .num (byteOf line.instruction 0).toNat, .str (getAsciiRepresentation line.instruction),
        .str disasm] :: printSymbolInfo table line.address ++ [.printf "\n" []]
  | .detailed =>
    number ++ printAddressAndSymbol line.address table ++
      [.printf ": 0x%08X  %s\n" [.num line.instruction.toNat, .str disasm],
        .printf "        Opcode: 0x%02X (%s), R1:%d, R2:%d, R3:%d, Imm:%d (0x%03X)\n"
          [.num opcode.toNat, .str (dezGetInstructionMnemonic opcode),
            .num (decodeReg1 line.instruction).toNat, .num (decodeReg2 line.instruction).toNat,
            .num (decodeReg3 line.instruction).toNat,
            .num (decodeImmediate line.instruction).toNat,
            .num (decodeImmediate line.instruction).toNat]]

/-- The first index, the end and the count that the loop and the statistics use. -/
def window (startAddr count totalCount : Word) : Word × Word × Word :=
  let count := if count = 0#32 then totalCount else count
  let startIdx := startAddr / 4#32
  let endIdx := startIdx + count
  if endIdx.toNat > totalCount.toNat then (startIdx, totalCount, totalCount - startIdx)
  else (startIdx, endIdx, count)

/-- The loop from `i` to `end_idx`; `fuel` bounds the passes left. -/
def listLines (instructions : List Word) (startAddr startIdx endIdx : Word) :
    ℕ → Word → Except Fault (List Line)
  | 0, _ => return []
  | fuel + 1, i =>
    if i.toNat < endIdx.toNat then
      match instructions[i.toNat]? with
      | none => .error (.outOfBounds instructions.length i.toNat)
      | some instruction => do
        let line := ⟨instruction, startAddr + (i - startIdx) * 4#32, i - startIdx + 1#32⟩
        let lines ← listLines instructions startAddr startIdx endIdx fuel (i + 1#32)
        return line :: lines
    else return []

/-- The numbers under `=== Statistics ===`. -/
structure Statistics where
  totalInstructions : Word
  firstAddress : Word
  lastAddress : Word
  codeSize : Word
  deriving DecidableEq

def Statistics.print (statistics : Statistics) : List Printed :=
  [.printf "\n=== Statistics ===\n" [],
    .printf "Total instructions: %u\n" [.num statistics.totalInstructions.toNat],
    .printf "Address range: 0x%08X - 0x%08X\n"
      [.num statistics.firstAddress.toNat, .num statistics.lastAddress.toNat],
    .printf "Code size: %u bytes\n" [.num statistics.codeSize.toNat]]

/-- What a call of `disassemble_binary_file` returns and prints; the lines and the statistics are
kept apart from their text. -/
structure Listing where
  status : ℕ
  lines : List Line
  statistics : Option Statistics
  stdout : List Printed
  stderr : List Printed

/-- `disassemble_binary_file`; `asmFile` gives the assembly file that a search for a name finds. -/
def disassembleBinaryFile (malloc : ℕ → Bool) (asmFile : List Byte → Option (List Byte))
    (options : DisasmOptions) (file : Option (List Byte)) : Except Fault Listing :=
  match readBinaryFile malloc options.filename file with
  | (stderr, none) => return ⟨1, [], none, [], stderr⟩
  | (stderr, some instructions) =>
    let totalCount : Word := BitVec.ofNat 32 instructions.length
    let loaded := match options.symbolFile with
      | some name => some (loadSymbolTable (asmFile name))
      | none =>
        if options.showSymbols then some (loadSymbolTable (asmFile options.filename)) else none
    let symbolTable := loaded.map Prod.fst
    let messages := (loaded.map Prod.snd).getD []
    let banner : List Printed := [.printf "=== DEZ Disassembler ===\n" [],
      .printf "File: %s (%u instructions)\n" [.str options.filename, .num totalCount.toNat]]
    let (startIdx, endIdx, count) := window options.startAddr options.count totalCount
    if startIdx.toNat ≥ totalCount.toNat then
      return ⟨1, [], none, messages ++ banner, stderr ++
        [.printf "Error: Start address 0x%08X is beyond file size\n"
          [.num options.startAddr.toNat]]⟩
    else do
      let lastAddress := options.startAddr + (count - 1#32) * 4#32
      let range : Printed :=
        .printf "Disassembling instructions %u-%u (addresses 0x%08X-0x%08X):\n\n"
          [.num startIdx.toNat, .num (endIdx - 1#32).toNat, .num options.startAddr.toNat,
            .num lastAddress.toNat]
      let headers := if options.showHeaders then
        printColumnHeaders options.format options.showLineNumbers else []
      let lines ← listLines instructions options.startAddr startIdx endIdx
        (endIdx.toNat - startIdx.toNat) startIdx
      let symbols : List Printed := match symbolTable with
        | some table => if options.showSymbols then symbolTablePrint table else []
        | none => []
      let statistics := if options.format = .detailed ∨ options.format = .simple then
        some ⟨count, options.startAddr, lastAddress, count * 4#32⟩ else none
      return ⟨0, lines, statistics,
        messages ++ banner ++ range :: headers ++
          lines.flatMap (disassembleInstruction options symbolTable) ++ symbols ++
          (statistics.map Statistics.print).getD [], stderr⟩

end Dez.DisasmTool
