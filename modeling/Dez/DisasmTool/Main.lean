import Dez.Assembler.HexFile
import Dez.DisasmTool.Search
import Dez.DisasmTool.ProgramListing

/-! The command line of `disasm_tool.c`: a binary file, or instructions among the arguments. -/
namespace Dez.DisasmTool
open Assembler Disassembler Machine

/-- `print_usage` -/
def printUsage (programName : List Byte) : List Printed :=
  [.printf "DEZ Disassembler - Enhanced Version\n" [],
    .printf "Usage: %s [OPTIONS] <file.bin|instruction...>\n\n" [.str programName],
    .printf "Options:\n" [],
    .printf "  -f, --format FORMAT    Output format: simple, detailed, assembly, hex, objdump, hexdump\n"
      [],
    .printf "  -s, --start ADDR       Start address (hex, default: 0)\n" [],
    .printf "  -c, --count NUM        Number of instructions to disassemble\n" [],
    .printf "  -a, --addresses        Show addresses in output\n" [],
    .printf "  -l, --line-numbers     Show line numbers\n" [],
    .printf "  -H, --headers          Show column headers\n" [],
    .printf "  -S, --symbols          Show symbol information\n" [],
    .printf "  --symbol-file FILE     Load symbol table from file\n" [],
    .printf "  --search-dir DIR       Add directory to search for assembly files\n" [],
    .printf "  -h, --help             Show this help message\n\n" [],
    .printf "Formats:\n" [],
    .printf "  simple     Simple disassembly (default)\n" [],
    .printf "  detailed   Detailed instruction breakdown\n" [],
    .printf "  assembly   Assembly source format\n" [],
    .printf "  hex        Hex dump with disassembly\n" [],
    .printf "  objdump    objdump-like format with proper columns\n" [],
    .printf "  hexdump    hexdump-like format with ASCII representation\n\n" [],
    .printf "Column Headers:\n" [],
    .printf "  objdump:    [Line] Address    Hex Instruction    Disassembly\n" [],
    .printf "  hexdump:    [Line] Address    Hex Bytes    ASCII    Disassembly\n" [],
    .printf "  detailed:   [Line] Address    Hex Instruction    Disassembly + Details\n\n" [],
    .printf "Examples:\n" [],
    .printf "  %s program.bin                    # Disassemble binary file\n" [.str programName],
    .printf "  %s -f objdump -H program.bin      # objdump format with headers\n"
      [.str programName],
    .printf "  %s -f hexdump -H program.bin      # hexdump format with headers\n"
      [.str programName],
    .printf "  %s -S program.bin                 # Show symbol table\n" [.str programName],
    .printf "  %s -s 0x100 -c 50 program.bin    # Disassemble 50 instructions from 0x100\n"
      [.str programName],
    .printf "  %s --search-dir src program.bin   # Search for assembly files in src/\n"
      [.str programName],
    .printf "  %s 0x01000005 0x04210000         # Disassemble individual instructions\n"
      [.str programName]]

def isSpace (c : Byte) : Bool := c = 0x20#8 || (9 ≤ c.toNat && c.toNat ≤ 13)

/-- `(uint32_t)strtoul(text, NULL, base)` for a base of 10 or 16. -/
def strtoulText (text : List Byte) (base : ℕ) : Word :=
  let text := text.dropWhile isSpace
  let negative := text.head? = some (ch '-')
  let text := if negative ∨ text.head? = some (ch '+') then text.tail else text
  let text :=
    if base = 16 ∧ text.head? = some (ch '0') ∧
        (text[1]? = some (ch 'x') ∨ text[1]? = some (ch 'X')) ∧ (text[2]?.any isHexDigit) then
      text.drop 2
    else text
  let digits := text.takeWhile (if base = 16 then isHexDigit else lexerIsDigit)
  -- the sign is taken of a number that fits only
  if negative ∧ digits.foldl (fun n c => n * base + digitValue c) 0 < 2 ^ 64 then
    -strtoul digits base
  else strtoul digits base

/-- `disasm_options_t` as `parse_arguments` fills it. -/
structure Arguments where
  options : DisasmOptions
  filename : Option (List Byte)
  searchDirs : List (List Byte)

/-- How `parse_arguments` returns. -/
inductive Command
  | help
  | refused (stderr : List Printed)
  | run (arguments : Arguments)

def outputFormat (name : List Byte) : Option OutputFormat :=
  if name = bytes "simple" then some .simple
  else if name = bytes "detailed" then some .detailed
  else if name = bytes "assembly" then some .assembly
  else if name = bytes "hex" then some .hex
  else if name = bytes "objdump" then some .objdump
  else if name = bytes "hexdump" then some .hexdump
  else none

/-- `parse_arguments`, on the arguments behind the program's name. -/
def parseArguments : List (List Byte) → Arguments → Command
  | [], a => .run a
  | arg :: rest, a =>
    if arg = bytes "-h" ∨ arg = bytes "--help" then .help
    else if arg = bytes "-f" ∨ arg = bytes "--format" then
      match rest with
      | [] => .refused [.printf "Error: --format requires an argument\n" []]
      | name :: rest =>
        match outputFormat name with
        | some format =>
          parseArguments rest { a with options := { a.options with format := format } }
        | none => .refused [.printf "Error: Invalid format '%s'\n" [.str name]]
    else if arg = bytes "-s" ∨ arg = bytes "--start" then
      match rest with
      | [] => .refused [.printf "Error: --start requires an address\n" []]
      | address :: rest =>
        parseArguments rest
          { a with options := { a.options with startAddr := strtoulText address 16 } }
    else if arg = bytes "-c" ∨ arg = bytes "--count" then
      match rest with
      | [] => .refused [.printf "Error: --count requires a number\n" []]
      | number :: rest =>
        parseArguments rest { a with options := { a.options with count := strtoulText number 10 } }
    else if arg = bytes "-a" ∨ arg = bytes "--addresses" then
      parseArguments rest { a with options := { a.options with showAddresses := true } }
    else if arg = bytes "-l" ∨ arg = bytes "--line-numbers" then
      parseArguments rest { a with options := { a.options with showLineNumbers := true } }
    else if arg = bytes "-H" ∨ arg = bytes "--headers" then
      parseArguments rest { a with options := { a.options with showHeaders := true } }
    else if arg = bytes "-S" ∨ arg = bytes "--symbols" then
      parseArguments rest { a with options := { a.options with showSymbols := true } }
    else if arg = bytes "--symbol-file" then
      match rest with
      | [] => .refused [.printf "Error: --symbol-file requires a filename\n" []]
      | file :: rest =>
        parseArguments rest { a with options := { a.options with symbolFile := some file } }
    else if arg = bytes "--search-dir" then
      match rest with
      | [] => .refused [.printf "Error: --search-dir requires a directory path\n" []]
      | dir :: rest =>
        if a.searchDirs.length < 1024 / 64 then
          parseArguments rest { a with searchDirs := a.searchDirs ++ [dir] }
        else .refused [.printf "Error: Too many search directories specified\n" []]
    else if arg.head? ≠ some (ch '-') then
      parseArguments rest { a with filename := a.filename.or (some arg) }
    else parseArguments rest a

/-- The second loop of `main` over the arguments, for those that are instructions. -/
def collectArguments : List (List Byte) → List (List Byte)
  | [] => []
  | arg :: rest =>
    if arg.head? ≠ some (ch '-') then arg :: collectArguments rest
    else if arg = bytes "-f" ∨ arg = bytes "--format" ∨ arg = bytes "-s" ∨ arg = bytes "--start" ∨
        arg = bytes "-c" ∨ arg = bytes "--count" then
      match rest with
      | [] => []
      | _ :: rest => collectArguments rest
    else collectArguments rest

/-- `disassemble_individual_instructions`, up to an address that does not fit an `int`. -/
def disassembleIndividualInstructions (asmFile : List Byte → Option (List Byte))
    (args : List (List Byte)) (options : DisasmOptions) : List Printed :=
  let loaded := match options.symbolFile with
    | some name => some (loadSymbolTable (asmFile name))
    | none => if options.showSymbols then some (createSampleSymbolTable, []) else none
  let symbolTable := loaded.map Prod.fst
  let messages := (loaded.map Prod.snd).getD []
  let headers := if options.showHeaders then
    printColumnHeaders options.format options.showLineNumbers else []
  let instructions := args.map fun arg => strtoulText arg 16
  let lines := instructions.mapIdx fun i instruction =>
    (⟨instruction, BitVec.ofNat 32 (i * 4), BitVec.ofNat 32 (i + 1)⟩ : Line)
  let summary : List Printed := if options.format = .detailed then
      .printf "\n=== Summary ===\n" [] :: instructions.mapIdx fun i instruction =>
        .printf "Instruction %d: 0x%08X (%s)\n" [.num i, .num instruction.toNat,
          .str (dezGetInstructionMnemonic (decodeOpcode instruction))]
    else []
  [.printf "=== DEZ Disassembler ===\n" [],
    .printf "Disassembling %d instruction(s):\n\n" [.num args.length]] ++ messages ++ headers ++
    lines.flatMap (disassembleInstruction options symbolTable) ++ summary

/-- The exit code of the tool and what it prints. -/
structure Result where
  code : ℕ
  stdout : List Printed
  stderr : List Printed

/-- `main` of `disasm_tool.c`, on the arguments behind the program's name. The file system gives the
contents of the files that can be opened and says what `access` finds readable. -/
def disasmMain (malloc : ℕ → Bool) (contents : List Byte → Option (List Byte))
    (readable : List Byte → Bool) (programName : List Byte) (args : List (List Byte)) :
    Except Fault Result :=
  if args = [] then return ⟨1, printUsage programName, []⟩
  else
    match parseArguments args ⟨defaultOptions [], none, []⟩ with
    | .help => return ⟨0, printUsage programName, []⟩
    | .refused stderr => return ⟨1, [], stderr⟩
    | .run a =>
      let asmFile (name : List Byte) : Option (List Byte) :=
        (findAssemblyFile readable [] name a.searchDirs).bind contents
      -- a name that starts like an instruction is none
      match a.filename.filter fun name => name.take 2 ≠ bytes "0x" with
      | some name => do
        let listing ← disassembleBinaryFile malloc asmFile { a.options with filename := name }
          (contents name)
        return ⟨listing.status, listing.stdout, listing.stderr⟩
      | none =>
        if a.options.showSymbols ∧ ¬ ∃ arg ∈ args, arg.head? ≠ some (ch '-') then
          return ⟨0, .printf "=== DEZ Symbol Table ===\n" [] ::
            symbolTablePrint createSampleSymbolTable, []⟩
        else
          let instArgs := collectArguments args
          if instArgs = [] then
            return ⟨1, printUsage programName,
              [.printf "Error: No instructions or filename provided\n" []]⟩
          else return ⟨0, disassembleIndividualInstructions asmFile instArgs a.options, []⟩

/-- Arguments that only say how to show the instructions, and what they make of the options. -/
inductive Lays : List (List Byte) → DisasmOptions → DisasmOptions → Prop
  | nil (options : DisasmOptions) : Lays [] options options
  | format {flag name : List Byte} {rest : List (List Byte)} {options options' : DisasmOptions}
      {format : OutputFormat} (hflag : flag = bytes "-f" ∨ flag = bytes "--format")
      (hname : outputFormat name = some format)
      (hrest : Lays rest { options with format := format } options') :
      Lays (flag :: name :: rest) options options'
  | addresses {flag : List Byte} {rest : List (List Byte)} {options options' : DisasmOptions}
      (hflag : flag = bytes "-a" ∨ flag = bytes "--addresses")
      (hrest : Lays rest { options with showAddresses := true } options') :
      Lays (flag :: rest) options options'
  | lineNumbers {flag : List Byte} {rest : List (List Byte)} {options options' : DisasmOptions}
      (hflag : flag = bytes "-l" ∨ flag = bytes "--line-numbers")
      (hrest : Lays rest { options with showLineNumbers := true } options') :
      Lays (flag :: rest) options options'
  | headers {flag : List Byte} {rest : List (List Byte)} {options options' : DisasmOptions}
      (hflag : flag = bytes "-H" ∨ flag = bytes "--headers")
      (hrest : Lays rest { options with showHeaders := true } options') :
      Lays (flag :: rest) options options'

/-- The lines of a list of instructions, from address 0 and line 1 on. -/
def linesFrom (ws : List Word) : List Line :=
  ws.mapIdx fun i w => ⟨w, BitVec.ofNat 32 (i * 4), BitVec.ofNat 32 (i + 1)⟩

/-- What is shown of a list of instructions, without names for their addresses. -/
def shown (options : DisasmOptions) (ws : List Word) : List Printed :=
  (if options.showHeaders then printColumnHeaders options.format options.showLineNumbers else []) ++
    (linesFrom ws).flatMap (disassembleInstruction options none)

def fileBanner (filename : List Byte) (ws : List Word) : List Printed :=
  [.printf "=== DEZ Disassembler ===\n" [],
    .printf "File: %s (%u instructions)\n" [.str filename, .num ws.length],
    .printf "Disassembling instructions %u-%u (addresses 0x%08X-0x%08X):\n\n"
      [.num 0, .num (ws.length - 1), .num 0, .num (4 * (ws.length - 1))]]

def fileStatistics (format : OutputFormat) (ws : List Word) : List Printed :=
  if format = .detailed ∨ format = .simple then
    [.printf "\n=== Statistics ===\n" [], .printf "Total instructions: %u\n" [.num ws.length],
      .printf "Address range: 0x%08X - 0x%08X\n" [.num 0, .num (4 * (ws.length - 1))],
      .printf "Code size: %u bytes\n" [.num (4 * ws.length)]]
  else []

def argumentsBanner (ws : List Word) : List Printed :=
  [.printf "=== DEZ Disassembler ===\n" [],
    .printf "Disassembling %d instruction(s):\n\n" [.num ws.length]]

def summary (format : OutputFormat) (ws : List Word) : List Printed :=
  if format = .detailed then
    .printf "\n=== Summary ===\n" [] :: ws.mapIdx fun i w =>
      .printf "Instruction %d: 0x%08X (%s)\n" [.num i, .num w.toNat,
        .str (dezGetInstructionMnemonic (decodeOpcode w))]
  else []

/-- An instruction as an argument of the tool: `"0x%08X"`. -/
def wordArgument (w : Word) : List Byte := bytes "0x" ++ hexadecimal 8 w

section modes

variable {flags rest : List (List Byte)} {options options' : DisasmOptions}
  {filename : Option (List Byte)} {dirs : List (List Byte)} {ws : List Word}

theorem parse_lays (h : Lays flags options options') :
    parseArguments (flags ++ rest) ⟨options, filename, dirs⟩ =
      parseArguments rest ⟨options', filename, dirs⟩ := by
  induction h with
  | nil options => rfl
  | format hflag hname _ ih =>
    rw [← ih]
    rcases hflag with rfl | rfl
    · simp only [List.cons_append, parseArguments, hname]
      rfl
    · simp only [List.cons_append, parseArguments, hname]
      rfl
  | addresses hflag _ ih | lineNumbers hflag _ ih | headers hflag _ ih =>
    rw [← ih, List.cons_append, parseArguments.eq_def]
    rcases hflag with rfl | rfl <;> rfl

theorem collect_lays (h : Lays flags options options') :
    collectArguments (flags ++ rest) = collectArguments rest := by
  induction h with
  | nil options => rfl
  | format hflag _ _ ih =>
    rw [← ih, List.cons_append, List.cons_append, collectArguments]
    rcases hflag with rfl | rfl <;> rfl
  | addresses hflag _ ih | lineNumbers hflag _ ih | headers hflag _ ih =>
    rw [← ih, List.cons_append, collectArguments.eq_def]
    rcases hflag with rfl | rfl <;> rfl

/-- Such arguments leave the window and the symbols as they were. -/
theorem Lays.kept (h : Lays flags options options') : options'.startAddr = options.startAddr ∧
    options'.count = options.count ∧ options'.showSymbols = options.showSymbols ∧
    options'.symbolFile = options.symbolFile := by
  induction h with
  | nil options => exact ⟨rfl, rfl, rfl, rfl⟩
  | format _ _ _ ih | addresses _ _ ih | lineNumbers _ _ ih | headers _ _ ih => exact ih

theorem strtoulText_wordArgument (w : Word) : strtoulText (wordArgument w) 16 = w := by
  have hdigits : ∀ d < 16, isHexDigit ((bytes "0123456789ABCDEF").getD d 0) = true := by decide
  have hall : ∀ c ∈ hexadecimal 8 w, isHexDigit c = true := by
    intro c hc
    obtain ⟨i, -, rfl⟩ := List.mem_map.mp hc
    exact hdigits _ (Nat.mod_lt _ (by decide))
  have htake : (hexadecimal 8 w).takeWhile isHexDigit = hexadecimal 8 w :=
    List.takeWhile_eq_self_iff.mpr hall
  have hfirst : ((hexadecimal 8 w)[0]?).any isHexDigit = true := by
    rw [hexadecimal_succ]
    exact hdigits _ (Nat.mod_lt _ (by decide))
  have hspace : (wordArgument w).dropWhile isSpace = ch '0' :: ch 'x' :: hexadecimal 8 w := rfl
  have hminus : ch '0' ≠ ch '-' ∧ ch '0' ≠ ch '+' := by decide
  simp only [strtoulText, hspace, List.head?_cons, Option.some.injEq, hminus, or_self, if_false,
    false_and, List.getElem?_cons_succ, List.getElem?_cons_zero, hfirst, true_or, and_self, if_true,
    List.drop_succ_cons, List.drop_zero, htake]
  exact strtoul_hexadecimal w

theorem wordArgument_head (w : Word) : (wordArgument w).head? = some (ch '0') := rfl

theorem collect_words (ws : List Word) :
    collectArguments (ws.map wordArgument) = ws.map wordArgument := by
  induction ws with
  | nil => rfl
  | cons w ws ih =>
    have hno : (wordArgument w).head? ≠ some (ch '-') := by
      rw [wordArgument_head]
      decide
    rw [List.map_cons, collectArguments.eq_def]
    exact (if_pos hno).trans (congrArg _ ih)

theorem parse_positional {arg : List Byte} (h : arg.head? ≠ some (ch '-')) (a : Arguments) :
    parseArguments (arg :: rest) a =
      parseArguments rest { a with filename := a.filename.or (some arg) } := by
  have hne : ∀ flag : List Byte, flag.head? = some (ch '-') → arg ≠ flag := by
    rintro flag hflag rfl
    exact h hflag
  rw [parseArguments.eq_def]
  simp only [hne (bytes "-h") rfl, hne (bytes "--help") rfl, hne (bytes "-f") rfl,
    hne (bytes "--format") rfl, hne (bytes "-s") rfl, hne (bytes "--start") rfl,
    hne (bytes "-c") rfl, hne (bytes "--count") rfl, hne (bytes "-a") rfl,
    hne (bytes "--addresses") rfl, hne (bytes "-l") rfl, hne (bytes "--line-numbers") rfl,
    hne (bytes "-H") rfl, hne (bytes "--headers") rfl, hne (bytes "-S") rfl,
    hne (bytes "--symbols") rfl, hne (bytes "--symbol-file") rfl, hne (bytes "--search-dir") rfl,
    or_self, if_false, h, ne_eq, not_false_eq_true, if_true]

theorem parse_words (ws : List Word) : parseArguments (ws.map wordArgument)
    ⟨options, filename, dirs⟩ =
      .run ⟨options, filename.or (ws.head?.map wordArgument), dirs⟩ := by
  induction ws generalizing filename with
  | nil =>
    cases filename <;> rfl
  | cons w ws ih =>
    have hno : (wordArgument w).head? ≠ some (ch '-') := by
      rw [wordArgument_head]
      decide
    rw [List.map_cons, parse_positional hno, ih]
    cases filename <;> rfl

section file

variable {malloc : ℕ → Bool} {asmFile : List Byte → Option (List Byte)}

theorem readBinaryFile_words (hne : ws ≠ []) (hlen : ws.length < 2 ^ 29)
    (hmalloc : malloc (ws.length * 4) = true) (filename : List Byte) :
    readBinaryFile malloc filename (some (ws.flatMap wordBytes)) = ([], some ws) := by
  have hsize := length_flatMap_wordBytes ws
  have hpos : 0 < ws.length := List.length_pos_iff.mpr hne
  have hcount : (BitVec.ofNat 32 (ws.length * 4 / 4)).toNat = ws.length := by
    rw [BitVec.toNat_ofNat, Nat.mul_div_cancel _ (by decide), Nat.mod_eq_of_lt (by omega)]
  have hwords : readWords ws.length (ws.flatMap wordBytes) = ws := by
    have hread := readWords_words ws []
    rwa [List.append_nil] at hread
  have hbytes : (ws.flatMap wordBytes).length = ws.length * 4 := by omega
  have hnonzero : ¬ ws.length * 4 = 0 := by omega
  simp only [readBinaryFile, hbytes, hcount, hwords, hnonzero, if_false, hmalloc,
    Nat.mul_mod_left, ne_eq, not_true_eq_false, Bool.true_eq_false, List.append_nil]

theorem lines_words (ws : List Word) :
    (List.range' 0 ws.length).map (lineAt ws 0#32 0#32) = linesFrom ws := by
  apply List.ext_getElem
  · simp [linesFrom]
  · intro i h1 h2
    have hi : i < ws.length := by
      simpa [linesFrom] using h2
    have haddress : 0#32 + (BitVec.ofNat 32 i - 0#32) * 4#32 = BitVec.ofNat 32 (i * 4) := by
      rw [BitVec.zero_add, BitVec.sub_zero, BitVec.ofNat_mul]
    have hline : BitVec.ofNat 32 i - 0#32 + 1#32 = BitVec.ofNat 32 (i + 1) := by
      rw [BitVec.sub_zero, BitVec.ofNat_add]
    rw [List.getElem_map, List.getElem_range', Nat.one_mul, Nat.zero_add]
    have hget : ws.getD i 0 = ws[i] := by
      rw [List.getD, List.getElem?_eq_getElem hi]
      rfl
    simp only [linesFrom, lineAt, List.getElem_mapIdx, haddress, hline, hget]

/-- The whole file is the window. -/
theorem window_all (ws : List Word) : window 0#32 0#32 (BitVec.ofNat 32 ws.length) =
    (0#32, BitVec.ofNat 32 ws.length, BitVec.ofNat 32 ws.length) := by
  have hidx : 0#32 / 4#32 = 0#32 := by decide
  simp only [window, hidx, if_true, BitVec.zero_add, gt_iff_lt, Nat.lt_irrefl, if_false]

theorem disassembleBinaryFile_words (hne : ws ≠ []) (hlen : ws.length < 2 ^ 29)
    (hmalloc : malloc (ws.length * 4) = true) (hstart : options.startAddr = 0#32)
    (hcount : options.count = 0#32) (hsymbols : options.showSymbols = false)
    (hfile : options.symbolFile = none) :
    ∃ listing, disassembleBinaryFile malloc asmFile options (some (ws.flatMap wordBytes)) =
        .ok listing ∧ listing.status = 0 ∧ listing.stderr = [] ∧
      listing.stdout = fileBanner options.filename ws ++ shown options ws ++
        fileStatistics options.format ws := by
  have hpos : 0 < ws.length := List.length_pos_iff.mpr hne
  have htotal : (BitVec.ofNat 32 ws.length).toNat = ws.length := by
    rw [BitVec.toNat_ofNat, Nat.mod_eq_of_lt (by omega)]
  have hlines := @listLines_eq ws (BitVec.ofNat 32 ws.length) _ 0#32 0#32 0#32
    (Nat.le_of_eq htotal) rfl
  rw [htotal] at hlines
  change listLines ws 0#32 0#32 (BitVec.ofNat 32 ws.length) ws.length 0#32 = _ at hlines
  have hread := readBinaryFile_words hne hlen hmalloc options.filename
  have hlast : (BitVec.ofNat 32 ws.length - 1#32).toNat = ws.length - 1 := by
    bv_omega
  have haddress : (0#32 + (BitVec.ofNat 32 ws.length - 1#32) * 4#32).toNat =
      4 * (ws.length - 1) := by
    bv_omega
  have hsize : (BitVec.ofNat 32 ws.length * 4#32).toNat = 4 * ws.length := by
    bv_omega
  have hzero : (0#32).toNat = 0 := rfl
  have hinside : ¬ 0 ≥ ws.length := Nat.not_le_of_lt hpos
  simp only [disassembleBinaryFile, hread, hstart, hcount, window_all, hsymbols, hfile, htotal,
    hzero, hinside, if_false, Nat.sub_zero, hlines, ok_bind]
  refine ⟨_, rfl, rfl, rfl, ?_⟩
  have hlisted : (List.range' (0#32).toNat (ws.length - (0#32).toNat)).map
      (lineAt ws 0#32 0#32) = linesFrom ws := lines_words ws
  simp only [hzero, Nat.sub_zero] at hlisted
  simp only [hlisted, hlast, haddress, Bool.false_eq_true, if_false]
  by_cases hformat : options.format = .detailed ∨ options.format = .simple
  · simp [fileBanner, shown, fileStatistics, hformat, Statistics.print, htotal, hsize]
    omega
  · simp [fileBanner, shown, fileStatistics, hformat]

theorem disassembleIndividualInstructions_words (ws : List Word)
    (hsymbols : options.showSymbols = false) (hfile : options.symbolFile = none) :
    disassembleIndividualInstructions asmFile (ws.map wordArgument) options =
      argumentsBanner ws ++ shown options ws ++ summary options.format ws := by
  have hwords : (ws.map wordArgument).map (fun arg => strtoulText arg 16) = ws := by
    rw [List.map_map]
    exact (List.map_congr_left fun w _ => strtoulText_wordArgument w).trans (List.map_id ws)
  simp only [disassembleIndividualInstructions, hwords, hsymbols, hfile, List.length_map]
  simp [argumentsBanner, shown, summary, linesFrom]

end file

variable {malloc : ℕ → Bool} {contents : List Byte → Option (List Byte)}
  {readable : List Byte → Bool} {programName name : List Byte}

/-- A file of raw instructions and the same instructions as arguments are shown alike, whatever the
format and the columns. -/
theorem modes_agree (hlays : Lays flags (defaultOptions []) options) (hne : ws ≠ [])
    (hlen : ws.length < 2 ^ 29) (hmalloc : malloc (ws.length * 4) = true)
    (hname : name.head? ≠ some (ch '-')) (hfile : name.take 2 ≠ bytes "0x")
    (hcontents : contents name = some (ws.flatMap wordBytes)) :
    disasmMain malloc contents readable programName (flags ++ [name]) =
        .ok ⟨0, fileBanner name ws ++ shown options ws ++ fileStatistics options.format ws, []⟩ ∧
      disasmMain malloc contents readable programName (flags ++ ws.map wordArgument) =
        .ok ⟨0, argumentsBanner ws ++ shown options ws ++ summary options.format ws, []⟩ := by
  obtain ⟨hstart, hcount, hshow, hsymbolFile⟩ := hlays.kept
  have hsymbols : options.showSymbols = false := hshow
  constructor
  · have hparse : parseArguments (flags ++ [name]) ⟨defaultOptions [], none, []⟩ =
        .run ⟨options, some name, []⟩ := by
      rw [parse_lays hlays, parse_positional hname]
      rfl
    have hfilter : (some name).filter (fun name => name.take 2 ≠ bytes "0x") = some name :=
      Option.filter_some_pos (decide_eq_true hfile)
    obtain ⟨listing, hlisting, hstatus, hstderr, hstdout⟩ :=
      @disassembleBinaryFile_words { options with filename := name } ws malloc
        (fun name => (findAssemblyFile readable [] name []).bind contents) hne hlen hmalloc hstart
        hcount hsymbols hsymbolFile
    rw [disasmMain, if_neg (by simp), hparse]
    simp only [hfilter, hcontents, hlisting, ok_bind, hstatus, hstderr, hstdout]
    rfl
  · have hparse : parseArguments (flags ++ ws.map wordArgument) ⟨defaultOptions [], none, []⟩ =
        .run ⟨options, ws.head?.map wordArgument, []⟩ := by
      rw [parse_lays hlays, parse_words]
      rfl
    have hfilter : (ws.head?.map wordArgument).filter (fun name => name.take 2 ≠ bytes "0x") =
        none := by
      cases ws with
      | nil => rfl
      | cons w ws =>
        have htake : (wordArgument w).take 2 = bytes "0x" := rfl
        exact Option.filter_some_neg (by simp [htake])
    have hcollect : collectArguments (flags ++ ws.map wordArgument) = ws.map wordArgument := by
      rw [collect_lays hlays, collect_words]
    have hwords : ws.map wordArgument ≠ [] := by simp [hne]
    rw [disasmMain, if_neg (by simp [hne]), hparse]
    simp only [hfilter, hsymbols, Bool.false_eq_true, false_and, if_false, hcollect, hwords,
      disassembleIndividualInstructions_words ws hsymbols hsymbolFile]
    rfl

/-- `-H -f hex`, with the two instructions of the usage. -/
theorem modes_agree_hex :
    let ws := [0x01000005#32, 0x04210000#32]
    let flags := [bytes "-H", bytes "-f", bytes "hex"]
    let contents : List Byte → Option (List Byte) := fun name =>
      if name = bytes "program.bin" then some (ws.flatMap wordBytes) else none
    let options := { defaultOptions [] with showHeaders := true, format := .hex }
    disasmMain (fun _ => true) contents (fun _ => false) (bytes "dez_disasm")
        (flags ++ [bytes "program.bin"]) =
        .ok ⟨0, fileBanner (bytes "program.bin") ws ++ shown options ws ++
          fileStatistics .hex ws, []⟩ ∧
      disasmMain (fun _ => true) contents (fun _ => false) (bytes "dez_disasm")
        (flags ++ ws.map wordArgument) =
        .ok ⟨0, argumentsBanner ws ++ shown options ws ++ summary .hex ws, []⟩ :=
  modes_agree (.headers (.inl rfl) (.format (.inl rfl) rfl (.nil _))) (by decide) (by decide) rfl
    (by decide) (by decide) rfl

end modes

/-- The number of instructions of a file, as the 32-bit count of the tool. -/
def instructionCount (file : List Byte) : ℕ := file.length / 4 % 2 ^ 32

/-- The file can be opened and held, and the first address asked for is in it. -/
structure Listable (malloc : ℕ → Bool) (file : Option (List Byte)) (start : Word) : Prop where
  held : ∀ text, file = some text → malloc (instructionCount text * 4) = true
  inside : ∃ text, file = some text ∧ start.toNat / 4 < instructionCount text

/-- When a command line is carried out. -/
def Command.CarriedOut (malloc : ℕ → Bool) (contents : List Byte → Option (List Byte))
    (args : List (List Byte)) : Command → Prop
  | help => True
  | refused _ => False
  | run a =>
    match a.filename.filter fun name => name.take 2 ≠ bytes "0x" with
    | some name => Listable malloc (contents name) a.options.startAddr
    | none => (a.options.showSymbols = true ∧ ∀ arg ∈ args, arg.head? = some (ch '-')) ∨
        collectArguments args ≠ []

section exitCode

variable {malloc : ℕ → Bool} {asmFile : List Byte → Option (List Byte)} {options : DisasmOptions}
  {file : Option (List Byte)} {text : List Byte}

/-- The clamp keeps the window in the array, also where the sum has wrapped around. -/
theorem window_end_le (startAddr count total : Word) :
    (window startAddr count total).1 = startAddr / 4#32 ∧
      (window startAddr count total).2.1.toNat ≤ total.toNat := by
  simp only [window]
  generalize (if count = 0#32 then total else count) = count
  split
  · exact ⟨rfl, Nat.le_refl _⟩
  · rename_i hle
    exact ⟨rfl, Nat.not_lt.mp hle⟩

theorem length_readWords_of_le {n : ℕ} (h : 4 * n ≤ text.length) :
    (readWords n text).length = n := by
  induction n generalizing text with
  | zero => rfl
  | succ n ih =>
    match text, h with
    | b0 :: b1 :: b2 :: b3 :: rest, h =>
      simp only [List.length_cons] at h
      have hrest := @ih rest (by omega)
      simp only [readWords, freadWord, List.length_cons, hrest]

/-- A file is read to its last whole word, or it is said why not. -/
theorem readBinaryFile_cases (malloc : ℕ → Bool) (name : List Byte) (file : Option (List Byte)) :
    (∃ stderr instructions text, readBinaryFile malloc name file = (stderr, some instructions) ∧
      file = some text ∧ malloc (instructionCount text * 4) = true ∧
        instructions.length = instructionCount text) ∨
    ∃ stderr, readBinaryFile malloc name file = (stderr, none) ∧ stderr ≠ [] ∧
      ∀ text, file = some text → text = [] ∨ malloc (instructionCount text * 4) = false := by
  cases file with
  | none => exact .inr ⟨_, rfl, List.cons_ne_nil _ _, fun _ h => nomatch h⟩
  | some text =>
    have hcount : (BitVec.ofNat 32 (text.length / 4)).toNat = instructionCount text :=
      BitVec.toNat_ofNat ..
    have hle : instructionCount text ≤ text.length / 4 := Nat.mod_le ..
    have hlength := @length_readWords_of_le text (instructionCount text) (by omega)
    simp only [readBinaryFile, hcount]
    by_cases hempty : text.length = 0
    · rw [if_pos hempty]
      refine .inr ⟨_, rfl, List.cons_ne_nil _ _, fun found hfound => ?_⟩
      cases hfound
      exact .inl (List.length_eq_zero_iff.mp hempty)
    · rw [if_neg hempty]
      cases hroom : malloc (instructionCount text * 4) with
      | true =>
        exact .inl ⟨_, readWords (instructionCount text) text, text,
          if_neg Bool.true_eq_false.mp, rfl, hroom, hlength⟩
      | false =>
        refine .inr ⟨_, if_pos rfl, ?_, fun found hfound => ?_⟩
        · exact List.append_ne_nil_of_right_ne_nil _ (List.cons_ne_nil _ _)
        · cases hfound
          exact .inr hroom

/-- No read of the loop is outside the array, and the call succeeds if there is a line to show. -/
theorem disassembleBinaryFile_returns (malloc : ℕ → Bool)
    (asmFile : List Byte → Option (List Byte)) (options : DisasmOptions)
    (file : Option (List Byte)) :
    ∃ listing, disassembleBinaryFile malloc asmFile options file = .ok listing ∧
      (listing.status = 0 ∧ Listable malloc file options.startAddr ∨
        listing.status = 1 ∧ ¬ Listable malloc file options.startAddr ∧ listing.stderr ≠ []) := by
  rcases readBinaryFile_cases malloc options.filename file with
    ⟨stderr, instructions, text, hread, rfl, hroom, hlength⟩ | ⟨stderr, hread, hsaid, hnone⟩
  · have htotal : (BitVec.ofNat 32 instructions.length).toNat = instructions.length := by
      rw [BitVec.toNat_ofNat, Nat.mod_eq_of_lt (hlength ▸ Nat.mod_lt _ (by decide))]
    obtain ⟨hstart, hend⟩ := window_end_le options.startAddr options.count
      (BitVec.ofNat 32 instructions.length)
    generalize hwindow : window options.startAddr options.count
      (BitVec.ofNat 32 instructions.length) = range at hstart hend
    obtain ⟨startIdx, endIdx, count⟩ := range
    obtain rfl : startIdx = options.startAddr / 4#32 := hstart
    have hidx := startIdx_toNat options.startAddr
    by_cases hinside : options.startAddr.toNat / 4 < instructions.length
    · have hlines := @listLines_eq _ _ _ options.startAddr (options.startAddr / 4#32)
        (options.startAddr / 4#32) (htotal ▸ hend) rfl
      rw [hidx] at hlines
      have hshown : ¬ options.startAddr.toNat / 4 ≥ instructions.length := Nat.not_le.mpr hinside
      simp only [disassembleBinaryFile, hread, hwindow, htotal, hlines, ok_bind, hidx, hshown,
        if_false]
      refine ⟨_, rfl, .inl ⟨rfl, fun found hfound => ?_, text, rfl, hlength ▸ hinside⟩⟩
      cases hfound
      exact hroom
    · have hbeyond : options.startAddr.toNat / 4 ≥ instructions.length := Nat.not_lt.mp hinside
      simp only [disassembleBinaryFile, hread, hwindow, htotal, hidx, hbeyond, if_true]
      refine ⟨_, rfl, .inr ⟨rfl, fun hlist => ?_, ?_⟩⟩
      · obtain ⟨found, hfound, hlt⟩ := hlist.inside
        cases hfound
        exact hinside (hlength ▸ hlt)
      · exact List.append_ne_nil_of_right_ne_nil _ (List.cons_ne_nil _ _)
  · simp only [disassembleBinaryFile, hread]
    refine ⟨_, rfl, .inr ⟨rfl, fun hlist => ?_, hsaid⟩⟩
    obtain ⟨text, hfile, hlt⟩ := hlist.inside
    rcases hnone text hfile with rfl | hfull
    · exact absurd hlt (Nat.not_lt_zero _)
    · exact Bool.false_ne_true (hfull.symm.trans (hlist.held text hfile))

/-- A command line that is refused is told why. -/
theorem parse_refused {args : List (List Byte)} {a : Arguments} {stderr : List Printed}
    (h : parseArguments args a = .refused stderr) : stderr ≠ [] := by
  fun_induction parseArguments args a
  -- an argument that is accepted goes on with the rest, and the others end the parsing
  all_goals first
    | (rename_i ih; exact ih h)
    | (cases h; exact List.cons_ne_nil _ _)
    | cases h

/-- The tool returns whatever its arguments and the files are, with 0 if the command line can be
carried out and with 1 if not, and then it says so or shows its usage. -/
theorem disasm_exit_code (malloc : ℕ → Bool) (contents : List Byte → Option (List Byte))
    (readable : List Byte → Bool) (programName : List Byte) (args : List (List Byte)) :
    ∃ result, disasmMain malloc contents readable programName args = .ok result ∧
      (result.code = 0 ∧
          (parseArguments args ⟨defaultOptions [], none, []⟩).CarriedOut malloc contents args ∨
        result.code = 1 ∧
          ¬ (parseArguments args ⟨defaultOptions [], none, []⟩).CarriedOut malloc contents args ∧
          (result.stderr ≠ [] ∨ result.stdout = printUsage programName)) := by
  by_cases hargs : args = []
  · subst hargs
    rw [disasmMain, if_pos rfl]
    refine ⟨_, rfl, .inr ⟨rfl, ?_, .inr rfl⟩⟩
    rintro (⟨hsymbols, -⟩ | hsome)
    · cases hsymbols
    · exact hsome rfl
  · rw [disasmMain, if_neg hargs]
    cases hparse : parseArguments args ⟨defaultOptions [], none, []⟩ with
    | help => exact ⟨_, rfl, .inl ⟨rfl, trivial⟩⟩
    | refused stderr => exact ⟨_, rfl, .inr ⟨rfl, not_false, .inl (parse_refused hparse)⟩⟩
    | run a =>
      simp only [Command.CarriedOut]
      cases a.filename.filter fun name => name.take 2 ≠ bytes "0x" with
      | some name =>
        obtain ⟨listing, hlisting, hstatus⟩ := disassembleBinaryFile_returns malloc
          (fun name => (findAssemblyFile readable [] name a.searchDirs).bind contents)
          { a.options with filename := name } (contents name)
        simp only [hlisting, ok_bind]
        refine ⟨_, rfl, ?_⟩
        rcases hstatus with ⟨hzero, hlist⟩ | ⟨hone, hlist, hsaid⟩
        · exact .inl ⟨hzero, hlist⟩
        · exact .inr ⟨hone, hlist, .inl hsaid⟩
      | none =>
        have hplain : (¬ ∃ arg ∈ args, arg.head? ≠ some (ch '-')) ↔
            ∀ arg ∈ args, arg.head? = some (ch '-') := by
          simp only [not_exists, not_and, ne_eq, not_not]
        simp only [hplain]
        by_cases hsymbols : a.options.showSymbols = true ∧ ∀ arg ∈ args, arg.head? = some (ch '-')
        · rw [if_pos hsymbols]
          exact ⟨_, rfl, .inl ⟨rfl, .inl hsymbols⟩⟩
        · rw [if_neg hsymbols]
          by_cases hcollect : collectArguments args = []
          · rw [if_pos hcollect]
            exact ⟨_, rfl, .inr ⟨rfl, not_or.mpr ⟨hsymbols, not_not.mpr hcollect⟩, .inr rfl⟩⟩
          · rw [if_neg hcollect]
            exact ⟨_, rfl, .inl ⟨rfl, .inr hcollect⟩⟩

end exitCode

end Dez.DisasmTool
