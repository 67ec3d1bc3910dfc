import Dez.Assembler.HexFile

/-! The program of `asm.c`: its command line, and the file that it leaves. -/
namespace Dez.Assembler

/-- What the program prints itself; the messages of the assembler are apart. -/
structure Notice where
  format : String
  args : List (List Byte)
  deriving DecidableEq

/-- The local variables of `main` that the command line sets. -/
structure Arguments where
  inputFile : Option (List Byte)
  outputFile : Option (List Byte)
  verbose : Bool
  hexOutput : Bool
  deriving DecidableEq

/-- How the loop over the arguments ends. -/
inductive Command
  | help
  | refused (notices : List Notice)
  | assemble (inputFile : List Byte) (arguments : Arguments)
  deriving DecidableEq

/-- `print_usage` -/
def printUsage (programName : List Byte) : List Notice :=
  [⟨"Dez VM Assembler\n", []⟩,
    ⟨"Usage: %s [options] <input_file> [output_file]\n", [programName]⟩,
    ⟨"\nOptions:\n", []⟩,
    ⟨"  -v, --verbose    Enable verbose output\n", []⟩,
    ⟨"  -h, --help       Show this help message\n", []⟩,
    ⟨"  -o <file>        Specify output file\n", []⟩,
    ⟨"  --hex            Output in hex format (default: binary)\n", []⟩,
    ⟨"\nExamples:\n", []⟩,
    ⟨"  %s program.asm\n", [programName]⟩,
    ⟨"  %s -v program.asm program.dez\n", [programName]⟩,
    ⟨"  %s --hex program.asm program.hex\n", [programName]⟩]

/-- The loop over the arguments behind the program's name, and the test for an input file. -/
def readArguments (programName : List Byte) : List (List Byte) → Arguments → Command
  | [], arguments =>
    match arguments.inputFile with
    | some inputFile => .assemble inputFile arguments
    | none => .refused (⟨"Error: No input file specified\n", []⟩ :: printUsage programName)
  | arg :: rest, arguments =>
    if arg = bytes "-h" ∨ arg = bytes "--help" then .help
    else if arg = bytes "-v" ∨ arg = bytes "--verbose" then
      readArguments programName rest { arguments with verbose := true }
    else if arg = bytes "--hex" then
      readArguments programName rest { arguments with hexOutput := true }
    else if arg = bytes "-o" then
      match rest with
      | outputFile :: rest =>
        readArguments programName rest { arguments with outputFile := some outputFile }
      | [] => .refused [⟨"Error: -o requires a filename\n", []⟩]
    else if arg.head? ≠ some (ch '-') then
      if arguments.inputFile = none then
        readArguments programName rest { arguments with inputFile := some arg }
      else if arguments.outputFile = none then
        readArguments programName rest { arguments with outputFile := some arg }
      else .refused [⟨"Error: Too many input files\n", []⟩]
    else .refused (⟨"Error: Unknown option '%s'\n", [arg]⟩ :: printUsage programName)

/-- The name of the output where the command line gives none. -/
def generatedName (inputFile : List Byte) (hexOutput : Bool) : List Byte :=
  match strrchr (ch '.') inputFile with
  | some len =>
    if inputFile.drop len = bytes ".asm" then
      inputFile.take len ++ if hexOutput then bytes ".hex" else bytes ".dez"
    else if hexOutput then bytes "output.hex" else bytes "output.dez"
  | none => if hexOutput then bytes "output.hex" else bytes "output.dez"

/-- What a run of the program leaves: its exit code, what it and the assembler print, and what it
hands to the stream of the file it has opened, by name. -/
structure Result where
  code : ℕ
  notices : List Notice
  printed : List Message
  file : Option (List Byte × List Byte)
  deriving DecidableEq

/-- `main` of `asm.c`. The file system gives the contents of the files that can be read and says
which can be written; `allocated` is what `malloc` finds in the buffer. -/
def asmMain (stale : ℕ → Word → ℕ → Word) (allocated : CArray Word 8192)
    (contents : List Byte → Option (List Byte)) (writable : List Byte → Bool)
    (programName : List Byte) (args : List (List Byte)) : Except Fault Result :=
  match readArguments programName args ⟨none, none, false, false⟩ with
  | .help => return ⟨0, printUsage programName, [], none⟩
  | .refused notices => return ⟨1, notices, [], none⟩
  | .assemble inputFile arguments => do
    let outputFile :=
      arguments.outputFile.getD (generatedName inputFile arguments.hexOutput)
    let (success, file, assembler) ←
      assemblerAssembleFile stale (assemblerInit arguments.verbose allocated) inputFile outputFile
        (contents inputFile) (writable outputFile)
    return ⟨if success then 0 else 1, [], assembler.printed,
      file.map fun file => (outputFile, file)⟩

variable {mark : Byte} {tail front behind inputFile : List Byte} {hexOutput : Bool}

/-- A text whose first byte comes once is not found across a place where that byte starts again. -/
theorem infix_append_mark (h : mark ∉ tail) : mark :: tail <:+: front ++ mark :: behind ↔
    mark :: tail <:+: front ∨ mark :: tail <:+: mark :: behind := by
  rw [List.infix_append_iff_ne_nil]
  constructor
  · rintro (h | h | ⟨first, second, hfirst, hsecond, heq, -, hprefix⟩)
    · exact .inl h
    · exact .inr h
    · obtain ⟨c, first, rfl⟩ := List.exists_cons_of_ne_nil hfirst
      obtain ⟨d, second, rfl⟩ := List.exists_cons_of_ne_nil hsecond
      obtain rfl : d = mark := (List.cons_prefix_cons.mp hprefix).1
      rw [(List.cons.inj heq).2] at h
      exact absurd (List.mem_append_right first List.mem_cons_self) h
  · rintro (h | h)
    · exact .inl h
    · exact .inr (.inl h)

theorem isHexFile_append {extension : List Byte} (h : extension = bytes ".asm" ∨
    extension = bytes ".dez") (stem : List Byte) :
    isHexFile (stem ++ extension) = isHexFile stem := by
  have hmark : ch '.' ∉ bytes "hex" := by decide
  have hno : ¬ bytes ".hex" <:+: bytes ".asm" ∧ ¬ bytes ".hex" <:+: bytes ".dez" := by decide
  unfold isHexFile
  rw [decide_eq_decide]
  rcases h with rfl | rfl
  · exact (infix_append_mark hmark).trans (or_iff_left hno.1)
  · exact (infix_append_mark hmark).trans (or_iff_left hno.2)

/-- Without `--hex` a generated name is still one of a hex file if the input's own name is. -/
theorem isHexFile_generatedName (inputFile : List Byte) (hexOutput : Bool) :
    isHexFile (generatedName inputFile hexOutput) = true ↔
      hexOutput = true ∨ bytes ".asm" <:+ inputFile ∧ isHexFile inputFile = true := by
  have hmark : ch '.' ∉ bytes "asm" := by decide
  by_cases hasm : bytes ".asm" <:+ inputFile
  · obtain ⟨stem, rfl⟩ := hasm
    have hlen : strrchr (ch '.') (stem ++ bytes ".asm") = some stem.length :=
      strrchr_append stem hmark
    have hname : generatedName (stem ++ bytes ".asm") hexOutput =
        stem ++ if hexOutput then bytes ".hex" else bytes ".dez" := by
      rw [generatedName, hlen]
      simp only [List.drop_left, if_true, List.take_left]
    rw [hname, isHexFile_append (.inl rfl)]
    cases hexOutput with
    | true =>
      refine iff_of_true ?_ (.inl rfl)
      exact decide_eq_true (List.suffix_append stem _).isInfix
    | false =>
      rw [if_neg Bool.false_ne_true, isHexFile_append (.inr rfl)]
      simp
  · have hname : generatedName inputFile hexOutput =
        if hexOutput then bytes "output.hex" else bytes "output.dez" := by
      unfold generatedName
      split
      · rename_i len hlen
        have hext : inputFile.drop len ≠ bytes ".asm" := by
          intro h
          exact hasm (h ▸ List.drop_suffix len inputFile)
        exact if_neg hext
      · rfl
    rw [hname]
    cases hexOutput with
    | true => exact iff_of_true (by decide) (.inl rfl)
    | false => exact iff_of_false (by decide) (by simp [hasm])

section main

variable {stale : ℕ → Word → ℕ → Word} {allocated : CArray Word 8192}
  {contents : List Byte → Option (List Byte)} {writable : List Byte → Bool}
  {programName : List Byte} {args : List (List Byte)} {result : Result}

/-- The name of the output that a command gives. -/
def outputName (inputFile : List Byte) (arguments : Arguments) : List Byte :=
  arguments.outputFile.getD (generatedName inputFile arguments.hexOutput)

/-- What is in a file is told by its name. -/
def InFormat (name file : List Byte) : Prop :=
  if isHexFile name then ∃ ws, hexFileWords file = some ws
  else ∃ ws strings, file = programFile ws strings

theorem Writes.inFormat {capacity : ℕ} {assembler : DezAssembler capacity} {name file : List Byte}
    {input : Option (List Byte)} {canWrite : Bool}
    (h : Writes stale assembler inputFile name input canWrite file) : InFormat name file := by
  obtain ⟨text, assembled, -, -, -, hwritten⟩ := writes_iff.mp h
  unfold InFormat
  rcases written_agree assembled.outputBuffer assembled.outputSize assembled.symbolTable with
    ⟨ws, hread, hhex, hbinary⟩ | ⟨fault, hhex, hbinary⟩
  · split at hwritten
    · cases hwritten.symm.trans hhex
      rw [if_pos ‹_›]
      exact ⟨ws, hread⟩
    · cases hwritten.symm.trans hbinary
      rw [if_neg ‹_›]
      exact ⟨ws, _, rfl⟩
  · split at hwritten
    · exact absurd (hwritten.symm.trans hhex) nofun
    · exact absurd (hwritten.symm.trans hbinary) nofun

/-- An assembly that succeeds has written its file, and one that fails none. -/
theorem assembled_file {capacity : ℕ} {assembler assembler' : DezAssembler capacity}
    {name : List Byte} {input file : Option (List Byte)} {canWrite success : Bool}
    (h : assemblerAssembleFile stale assembler inputFile name input canWrite =
      .ok (success, file, assembler')) :
    success = true ∧ (∃ written, file = some written ∧
      Writes stale assembler inputFile name input canWrite written) ∨
    success = false ∧ file = none := by
  have hrun := h
  unfold assemblerAssembleFile at h
  cases input with
  | none =>
    cases h
    exact .inr ⟨rfl, rfl⟩
  | some text =>
    obtain ⟨⟨done, assembled⟩, -, h⟩ := bind_eq_ok h
    cases done with
    | false =>
      cases h
      exact .inr ⟨rfl, rfl⟩
    | true =>
      cases canWrite with
      | false =>
        cases h
        exact .inr ⟨rfl, rfl⟩
      | true =>
        simp only [Bool.not_true, Bool.false_eq_true, if_false] at h
        split at h
        · obtain ⟨written, -, h⟩ := bind_eq_ok h
          cases h
          exact .inl ⟨rfl, written, rfl, _, hrun⟩
        · obtain ⟨written, -, h⟩ := bind_eq_ok h
          cases h
          exact .inl ⟨rfl, written, rfl, _, hrun⟩

/-- Whenever `asm` returns, its exit code is 0 if it was asked for help or has handed its output to
the opened file, and 1 otherwise; whether the bytes reach the disk it does not look at. Of the
output it is the name that tells the format: without a name on the command line that is what `--hex`
says, unless the name of the input does. -/
theorem asm_exit_code
    (h : asmMain stale allocated contents writable programName args = .ok result) :
    result.code ≤ 1 ∧
    (result.code = 0 ↔
      readArguments programName args ⟨none, none, false, false⟩ = .help ∨
        ∃ name file, result.file = some (name, file)) ∧
    ∀ name file, result.file = some (name, file) → ∃ inputFile arguments,
      readArguments programName args ⟨none, none, false, false⟩ = .assemble inputFile arguments ∧
      name = outputName inputFile arguments ∧ InFormat name file ∧
      (arguments.outputFile = none → (isHexFile name = true ↔
        arguments.hexOutput = true ∨ bytes ".asm" <:+ inputFile ∧ isHexFile inputFile = true)) := by
  unfold asmMain at h
  cases hcommand : readArguments programName args ⟨none, none, false, false⟩ with
  | help =>
    rw [hcommand] at h
    cases h
    exact ⟨Nat.zero_le _, iff_of_true rfl (.inl rfl), nofun⟩
  | refused notices =>
    rw [hcommand] at h
    cases h
    refine ⟨le_rfl, iff_of_false Nat.one_ne_zero ?_, nofun⟩
    rintro (hhelp | ⟨name, file, hfile⟩)
    · cases hhelp
    · cases hfile
  | assemble inputFile arguments =>
    rw [hcommand] at h
    obtain ⟨⟨success, file, assembler⟩, hassemble, h⟩ := bind_eq_ok h
    cases h
    rcases assembled_file hassemble with ⟨rfl, written, rfl, hwrites⟩ | ⟨rfl, rfl⟩
    · refine ⟨Nat.zero_le _, iff_of_true rfl (.inr ⟨_, written, rfl⟩), ?_⟩
      rintro name file ⟨⟩
      refine ⟨inputFile, arguments, rfl, rfl, hwrites.inFormat, fun hnone => ?_⟩
      rw [hnone]
      exact isHexFile_generatedName inputFile arguments.hexOutput
    · refine ⟨le_rfl, iff_of_false Nat.one_ne_zero ?_, nofun⟩
      rintro (hhelp | ⟨name, file, hfile⟩)
      · cases hhelp
      · cases hfile

/-- A text with a label, and `--hex`. -/
theorem asm_exit_code_hex :
    let contents : List Byte → Option (List Byte) := fun name =>
      if name = bytes "a.asm" then some (bytes "L:\nJMP L") else none
    ∃ result, asmMain (fun _ _ _ => 0) (fun _ => 0) contents (fun _ => true) (bytes "asm")
        [bytes "--hex", bytes "a.asm"] = .ok result ∧
      result.file = some (bytes "a.hex", bytes "v2.0 raw\n08000000\n") ∧
      result.code ≤ 1 ∧
      (result.code = 0 ↔
        readArguments (bytes "asm") [bytes "--hex", bytes "a.asm"] ⟨none, none, false, false⟩ =
            .help ∨
          ∃ name file, result.file = some (name, file)) := by
  intro contents
  have hrun : asmMain (fun _ _ _ => 0) (fun _ => 0) contents (fun _ => true) (bytes "asm")
      [bytes "--hex", bytes "a.asm"] = .ok ⟨0, [], [.assembled 1 (bytes "a.hex")],
        some (bytes "a.hex", bytes "v2.0 raw\n08000000\n")⟩ := by
    decide +kernel
  obtain ⟨hcode, hzero, -⟩ := asm_exit_code hrun
  exact ⟨_, hrun, rfl, hcode, hzero⟩

end main

end Dez.Assembler
