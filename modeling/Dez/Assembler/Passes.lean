import Dez.Assembler.Progress

/-! What a text says, line by line, and what each pass of `parser_parse` makes of the lines. -/
namespace Dez.Assembler

/-- How the reading of a text ends: at its end, at a token no line can start with, or with an error
the parser reports. -/
inductive Ending
  | eof | stuck | failed
  deriving DecidableEq

/-- The lines of a text, how their reading ends, and where. -/
structure Reading where
  lines : List Line
  ending : Ending
  lexer : Lexer

/-- The loop of `parser_parse` without what the passes do. -/
def readLines : ℕ → Lexer → Reading
  | 0, lexer => ⟨[], .eof, lexer⟩
  | fuel + 1, lexer =>
    let (token, lexer) := parserCurrentToken lexer
    if token.type = .eof then ⟨[], .eof, lexer⟩
    else
      match readLine lexer with
      | .ok line lexer =>
        let rest := readLines fuel lexer
        ⟨line :: rest.lines, rest.ending, rest.lexer⟩
      | .stuck lexer => ⟨[], .stuck, lexer⟩
      | .fail _ lexer => ⟨[], .failed, lexer⟩

/-- The reading of a source text. -/
@[irreducible] def readSource (input : List Byte) : Reading :=
  readLines ((lexerInit input).left + 1) (lexerInit input)

theorem readSource_eq (input : List Byte) :
    readLines ((lexerInit input).left + 1) (lexerInit input) = readSource input := by
  unfold readSource
  rfl

def Line.instruction? : Line → Option ParsedInstruction
  | .instruction inst => some inst
  | _ => none

/-- The instruction lines. -/
def instructions (lines : List Line) : List ParsedInstruction := lines.filterMap Line.instruction?

theorem instructions_cons_none {line : Line} (lines : List Line) (h : line.instruction? = none) :
    instructions (line :: lines) = instructions lines := List.filterMap_cons_none h

@[simp] theorem instructions_cons_instruction (inst : ParsedInstruction) (lines : List Line) :
    instructions (.instruction inst :: lines) = inst :: instructions lines :=
  List.filterMap_cons_some rfl

theorem Line.eq_instruction {line : Line} {inst : ParsedInstruction}
    (h : line.instruction? = some inst) : line = .instruction inst := by
  cases line <;> cases h
  rfl

/-- What pass 1 does with a line: the symbol table, and the address of the next instruction. -/
def defineLine : SymbolTable × Word → Line → SymbolTable × Word
  | (table, address), .blank => (table, address)
  | (table, address), .label name line =>
    ((symbolTableDefine table name.chars address line).2.1, address)
  | (table, address), .constant name value line =>
    ((symbolTableDefineConstant table name.chars value line).2.1, address)
  | (table, address), .instruction _ => (table, address + 1#32)

/-- What pass 1 leaves after some lines. -/
def defineLines (start : SymbolTable × Word) (lines : List Line) : SymbolTable × Word :=
  lines.foldl defineLine start

/-- The words pass 2 makes of the instructions, and the symbol table with the strings it adds. -/
def encodeAll (stale : Word → ℕ → Word) (address : Word) (table : SymbolTable) :
    List ParsedInstruction → List Word × SymbolTable
  | [] => ([], table)
  | inst :: rest =>
    let encoded := parserEncodeInstruction (stale address) table inst
    let tail := encodeAll stale (address + 1#32) encoded.2.1 rest
    (encoded.1 :: tail.1, tail.2)

variable {capacity : ℕ} {stale : Word → ℕ → Word} {parser : Parser capacity} {lexer : Lexer}

theorem length_encodeAll (address : Word) (table : SymbolTable) (insts : List ParsedInstruction) :
    (encodeAll stale address table insts).1.length = insts.length := by
  induction insts generalizing address table with
  | nil => rfl
  | cons inst insts ih => simp [encodeAll, ih]

/-- Consecutive addresses. -/
theorem ofNat_succ_add (address : Word) (n : ℕ) :
    address + BitVec.ofNat 32 (n + 1) = address + 1#32 + BitVec.ofNat 32 n := by
  rw [BitVec.ofNat_add, BitVec.add_comm (BitVec.ofNat 32 n), BitVec.add_assoc]

/-- Instruction `i` is encoded with the strings of the instructions before it in the table. -/
theorem encodeAll_getElem (stale : Word → ℕ → Word) (address : Word) (table : SymbolTable)
    (insts : List ParsedInstruction) {i : ℕ} (h : i < insts.length) :
    (encodeAll stale address table insts).1[i]? = some
      (parserEncodeInstruction (stale (address + BitVec.ofNat 32 i))
        (encodeAll stale address table (insts.take i)).2 insts[i]).1 := by
  induction insts generalizing address table i with
  | nil => simp at h
  | cons inst insts ih =>
    cases i with
    | zero => simp [encodeAll]
    | succ i =>
      rw [ofNat_succ_add]
      simpa [encodeAll] using ih (address + 1#32) _ (Nat.lt_of_succ_lt_succ h)

/-- Consecutive words written into the output. -/
def putOutput (output : CArray Word capacity) (k : ℕ) (words : List Word) : CArray Word capacity :=
  fun i => if h : k ≤ i.val ∧ i.val - k < words.length then words[i.val - k] else output i

theorem putOutput_nil (output : CArray Word capacity) (k : ℕ) : putOutput output k [] = output := by
  funext i
  simp [putOutput]

theorem putOutput_zero (output : CArray Word capacity) {words : List Word} {i : Fin capacity}
    (h : i.val < words.length) : putOutput output 0 words i = words[i.val] := by
  simp [putOutput, h]

theorem putOutput_set (output : CArray Word capacity) {k : ℕ} (hk : k < capacity) (w : Word)
    (words : List Word) :
    putOutput (output.set ⟨k, hk⟩ w) (k + 1) words = putOutput output k (w :: words) := by
  funext i
  unfold putOutput
  by_cases h : k + 1 ≤ i.val ∧ i.val - (k + 1) < words.length
  · have hi : i.val - k = i.val - (k + 1) + 1 := by omega
    rw [dif_pos h, dif_pos ⟨by omega, by rw [List.length_cons]; omega⟩]
    simp [hi]
  · rw [dif_neg h, CArray.set_apply]
    by_cases hi : i = ⟨k, hk⟩
    · subst i
      rw [if_pos rfl, dif_pos ⟨le_rfl, by simp⟩]
      simp
    · have hne : i.val ≠ k := fun he => hi (Fin.ext he)
      rw [if_neg hi, dif_neg (by simp only [List.length_cons]; omega)]

theorem readLines_eof {fuel : ℕ} (h : (lexerPeekToken lexer).1.type = .eof) :
    readLines (fuel + 1) lexer = ⟨[], .eof, (lexerPeekToken lexer).2⟩ := by
  simp [readLines, parserCurrentToken, h]

theorem readLines_ok {fuel : ℕ} {line : Line} {next : Lexer}
    (h : (lexerPeekToken lexer).1.type ≠ .eof)
    (hl : readLine (lexerPeekToken lexer).2 = .ok line next) :
    readLines (fuel + 1) lexer =
      ⟨line :: (readLines fuel next).lines, (readLines fuel next).ending,
        (readLines fuel next).lexer⟩ := by
  simp [readLines, parserCurrentToken, h, hl]

theorem readLines_stuck {fuel : ℕ} (h : (lexerPeekToken lexer).1.type ≠ .eof)
    (hl : ¬ (lexerPeekToken lexer).1.StartsLine) :
    readLines (fuel + 1) lexer = ⟨[], .stuck, (lexerPeekToken lexer).2⟩ := by
  have hstuck := readLine_stuck_iff.mpr ⟨by rwa [peek_peek], rfl⟩
  rw [peek_peek] at hstuck
  simp [readLines, parserCurrentToken, h, hstuck]

theorem readLines_fail {fuel : ℕ} {message : Message} {next : Lexer}
    (h : (lexerPeekToken lexer).1.type ≠ .eof)
    (hl : readLine (lexerPeekToken lexer).2 = .fail message next) :
    readLines (fuel + 1) lexer = ⟨[], .failed, next⟩ := by
  simp [readLines, parserCurrentToken, h, hl]

/-- The cases of one round of the reading loop. -/
theorem readLine_cases (h : (lexerPeekToken lexer).1.type ≠ .eof) :
    (∃ line next, readLine (lexerPeekToken lexer).2 = .ok line next ∧ next.left < lexer.left ∧
      next.input = lexer.input) ∨
    ¬ (lexerPeekToken lexer).1.StartsLine ∨
    ∃ message next, readLine (lexerPeekToken lexer).2 = .fail message next := by
  have hleads := (peek_leads lexer).trans (readLine_calls (lexerPeekToken lexer).2).leads
  cases hl : readLine (lexerPeekToken lexer).2 with
  | ok line next =>
    rw [hl] at hleads
    have hlt := readLine_ok_left (by rwa [peek_peek]) hl
    exact .inl ⟨line, next, rfl, hlt.trans_le (peek_leads lexer).left, hleads.input⟩
  | stuck next =>
    have hs := (readLine_stuck_iff.mp hl).1
    rw [peek_peek] at hs
    exact .inr (.inl hs)
  | fail message next => exact .inr (.inr ⟨message, next, rfl⟩)

/-- With enough fuel the reading goes on until the end of the text, a token no line starts with, or
an error. -/
theorem readLines_ending (fuel : ℕ) (h : lexer.left < fuel) :
    (readLines fuel lexer).ending = .failed ∨
    ((readLines fuel lexer).ending = .eof ∧
      (lexerPeekToken (readLines fuel lexer).lexer).1.type = .eof) ∨
    ((readLines fuel lexer).ending = .stuck ∧
      (lexerPeekToken (readLines fuel lexer).lexer).1.type ≠ .eof) := by
  induction fuel generalizing lexer with
  | zero => omega
  | succ fuel ih =>
    by_cases he : (lexerPeekToken lexer).1.type = .eof
    · rw [readLines_eof he]
      exact .inr (.inl ⟨rfl, by rwa [peek_peek]⟩)
    · rcases readLine_cases he with ⟨line, next, hl, hlt, -⟩ | hs | ⟨message, next, hl⟩
      · rw [readLines_ok he hl]
        exact ih (by omega)
      · rw [readLines_stuck he hs]
        exact .inr (.inr ⟨rfl, by rwa [peek_peek]⟩)
      · rw [readLines_fail he hl]
        exact .inl rfl

/-- Unless an error is reported, a reading stays in its text. -/
theorem readLines_input (fuel : ℕ) (h : (readLines fuel lexer).ending ≠ .failed) :
    (readLines fuel lexer).lexer.input = lexer.input := by
  induction fuel generalizing lexer with
  | zero => rfl
  | succ fuel ih =>
    by_cases he : (lexerPeekToken lexer).1.type = .eof
    · rw [readLines_eof he]
      exact (peek_leads lexer).input
    · rcases readLine_cases he with ⟨line, next, hl, -, hi⟩ | hs | ⟨message, next, hl⟩
      · rw [readLines_ok he hl] at h ⊢
        exact (ih h).trans hi
      · rw [readLines_stuck he hs]
        exact (peek_leads lexer).input
      · rw [readLines_fail he hl] at h
        exact absurd rfl h

/-- The tokens that lines start with, up to the one where the reading stops. -/
def lineStarts : ℕ → Lexer → List Token
  | 0, _ => []
  | fuel + 1, lexer =>
    let (token, lexer) := parserCurrentToken lexer
    if token.type = .eof then []
    else
      match readLine lexer with
      | .ok _ lexer => token :: lineStarts fuel lexer
      | _ => [token]

theorem readLines_stuck_iff (fuel : ℕ) : (readLines fuel lexer).ending = .stuck ↔
    ∃ token ∈ lineStarts fuel lexer, ¬ token.StartsLine := by
  induction fuel generalizing lexer with
  | zero => simp [readLines, lineStarts]
  | succ fuel ih =>
    by_cases he : (lexerPeekToken lexer).1.type = .eof
    · simp [readLines_eof he, lineStarts, parserCurrentToken, he]
    · have hstarts : readLine (lexerPeekToken lexer).2 = .stuck (lexerPeekToken lexer).2 ↔
          ¬ (lexerPeekToken lexer).1.StartsLine := by
        rw [readLine_stuck_iff, peek_peek]
        exact and_iff_left rfl
      rcases readLine_cases he with ⟨line, next, hl, -⟩ | hs | ⟨message, next, hl⟩
      · rw [readLines_ok he hl]
        have hs : (lexerPeekToken lexer).1.StartsLine := by
          by_contra hno
          simp [hstarts.mpr hno] at hl
        simp [lineStarts, parserCurrentToken, he, hl, ih, hs]
      · have hl := hstarts.mpr hs
        simp [readLines_stuck he hs, lineStarts, parserCurrentToken, he, hl, hs]
      · have hs : (lexerPeekToken lexer).1.StartsLine := by
          by_contra hno
          simp [hstarts.mpr hno] at hl
        simp [readLines_fail he hl, lineStarts, parserCurrentToken, he, hl, hs]

section parserPass

variable {fuel : ℕ} {next : Lexer}

theorem parserPass_eof (he : parser.error = false)
    (h : (lexerPeekToken parser.lexer).1.type = .eof) :
    parserPass stale (fuel + 1) parser =
      { parser with lexer := (lexerPeekToken parser.lexer).2 } := by
  simp [parserPass, he, parserCurrentToken, h]

theorem parserPass_line (he : parser.error = false)
    (h : (lexerPeekToken parser.lexer).1.type ≠ .eof) :
    parserPass stale (fuel + 1) parser =
      let r := parserParseLineWithLabels stale
        { parser with lexer := (lexerPeekToken parser.lexer).2 }
      if r.1 then parserPass stale fuel r.2 else r.2 := by
  simp [parserPass, he, parserCurrentToken, h]

theorem parseLine_ok {line : Line} (hl : readLine parser.lexer = .ok line next) :
    parserParseLineWithLabels stale parser = { parser with lexer := next }.perform stale line := by
  simp [parserParseLineWithLabels, hl, Parser.stop]

theorem parseLine_stuck (hl : readLine parser.lexer = .stuck next) :
    parserParseLineWithLabels stale parser = (false, { parser with lexer := next }) := by
  simp [parserParseLineWithLabels, hl, Parser.stop]

theorem parseLine_fail {message : Message} (hl : readLine parser.lexer = .fail message next) :
    parserParseLineWithLabels stale parser =
      (false, { parser with lexer := next, error := true }.print [message]) := by
  simp [parserParseLineWithLabels, hl, Parser.stop]

theorem perform_one (stale : Word → ℕ → Word) (parser : Parser capacity) (line : Line)
    (hp : parser.pass = 1) :
    ∃ printed, parser.perform stale line = (true, { parser with
      symbolTable := (defineLine (parser.symbolTable, parser.currentAddress) line).1
      currentAddress := (defineLine (parser.symbolTable, parser.currentAddress) line).2
      printed := printed }) := by
  cases line with
  | blank => exact ⟨_, rfl⟩
  | label name line => exact ⟨_, by simp only [Parser.perform, if_pos hp]; rfl⟩
  | constant name value line => exact ⟨_, by simp only [Parser.perform, if_pos hp]; rfl⟩
  | instruction inst => exact ⟨parser.printed, by simp [Parser.perform, hp, defineLine]⟩

/-- In pass 2 only instructions do something. -/
theorem perform_two_other (parser : Parser capacity) {line : Line} (hp : parser.pass = 2)
    (hi : line.instruction? = none) :
    parser.perform stale line = (true, parser) := by
  cases line with
  | instruction inst => cases hi
  | _ => simp [Parser.perform, hp]

theorem perform_two (stale : Word → ℕ → Word) (parser : Parser capacity) (inst : ParsedInstruction)
    (hp : parser.pass = 2) (hlt : parser.outputSize < capacity) :
    ∃ printed, parser.perform stale (.instruction inst) = (true, { parser with
      symbolTable := (parserEncodeInstruction (stale parser.currentAddress) parser.symbolTable
        inst).2.1
      output := parser.output.set ⟨parser.outputSize, hlt⟩
        (parserEncodeInstruction (stale parser.currentAddress) parser.symbolTable inst).1
      outputSize := parser.outputSize + 1
      currentAddress := parser.currentAddress + 1#32
      printed := printed }) := by
  refine ⟨parser.printed ++
    (parserEncodeInstruction (stale parser.currentAddress) parser.symbolTable inst).2.2, ?_⟩
  simp only [Parser.perform, Parser.emit, hp, if_true, Parser.print, dif_pos hlt]

/-- A full output stops pass 2 with an error. -/
theorem perform_two_full (stale : Word → ℕ → Word) (parser : Parser capacity)
    (inst : ParsedInstruction) (hp : parser.pass = 2) (hfull : ¬ parser.outputSize < capacity) :
    (parser.perform stale (.instruction inst)).1 = false ∧
      (parser.perform stale (.instruction inst)).2.error = true := by
  simp [Parser.perform, Parser.emit, hp, Parser.print, hfull, parserError, Parser.stop]

end parserPass

/-- The first pass defines the symbols of the lines, in order. -/
theorem parserPass_one (stale : Word → ℕ → Word) (parser : Parser capacity) (fuel : ℕ)
    (hp : parser.pass = 1) (he : parser.error = false) :
    ∃ printed, parserPass stale fuel parser = { parser with
      lexer := (readLines fuel parser.lexer).lexer
      error := (readLines fuel parser.lexer).ending = .failed
      symbolTable := (defineLines (parser.symbolTable, parser.currentAddress)
        (readLines fuel parser.lexer).lines).1
      currentAddress := (defineLines (parser.symbolTable, parser.currentAddress)
        (readLines fuel parser.lexer).lines).2
      printed := printed } := by
  induction fuel generalizing parser with
  | zero => exact ⟨parser.printed, by simp [parserPass, readLines, defineLines, ← he]⟩
  | succ fuel ih =>
    by_cases h : (lexerPeekToken parser.lexer).1.type = .eof
    · rw [parserPass_eof he h, readLines_eof h]
      exact ⟨parser.printed, by simp [defineLines, ← he]⟩
    · rw [parserPass_line he h]
      cases hl : readLine (lexerPeekToken parser.lexer).2 with
      | ok line next =>
        rw [readLines_ok h hl, parseLine_ok hl]
        obtain ⟨out, hperform⟩ := perform_one stale { parser with lexer := next } line hp
        rw [hperform]
        obtain ⟨printed, hrest⟩ := ih { parser with
          lexer := next
          symbolTable := (defineLine (parser.symbolTable, parser.currentAddress) line).1
          currentAddress := (defineLine (parser.symbolTable, parser.currentAddress) line).2
          printed := out } hp he
        exact ⟨printed, hrest⟩
      | stuck next =>
        rw [parseLine_stuck hl]
        exact ⟨parser.printed, by simp [readLines, parserCurrentToken, h, hl, defineLines, ← he]⟩
      | fail message next =>
        rw [parseLine_fail hl]
        exact ⟨_, by simp [readLines, parserCurrentToken, h, hl, defineLines]; rfl⟩

/-- The second pass, given room, writes the words of the instructions, in order. -/
theorem parserPass_two (stale : Word → ℕ → Word) (parser : Parser capacity) (fuel : ℕ)
    (hp : parser.pass = 2) (he : parser.error = false)
    (hroom : parser.outputSize + (instructions (readLines fuel parser.lexer).lines).length ≤
      capacity) :
    ∃ printed, parserPass stale fuel parser = { parser with
      lexer := (readLines fuel parser.lexer).lexer
      error := (readLines fuel parser.lexer).ending = .failed
      symbolTable := (encodeAll stale parser.currentAddress parser.symbolTable
        (instructions (readLines fuel parser.lexer).lines)).2
      output := putOutput parser.output parser.outputSize (encodeAll stale parser.currentAddress
        parser.symbolTable (instructions (readLines fuel parser.lexer).lines)).1
      outputSize := parser.outputSize + (instructions (readLines fuel parser.lexer).lines).length
      currentAddress := parser.currentAddress +
        BitVec.ofNat 32 (instructions (readLines fuel parser.lexer).lines).length
      printed := printed } := by
  induction fuel generalizing parser with
  | zero =>
    exact ⟨parser.printed,
      by simp [parserPass, readLines, instructions, encodeAll, putOutput_nil, ← he]⟩
  | succ fuel ih =>
    by_cases h : (lexerPeekToken parser.lexer).1.type = .eof
    · rw [parserPass_eof he h, readLines_eof h]
      exact ⟨parser.printed, by simp [instructions, encodeAll, putOutput_nil, ← he]⟩
    · rw [parserPass_line he h]
      cases hl : readLine (lexerPeekToken parser.lexer).2 with
      | ok line next =>
        rw [readLines_ok h hl] at hroom ⊢
        rw [parseLine_ok hl]
        cases hi : line.instruction? with
        | none =>
          rw [instructions_cons_none _ hi] at hroom ⊢
          rw [perform_two_other { parser with lexer := next } hp hi]
          exact ih { parser with lexer := next } hp he hroom
        | some inst =>
          cases Line.eq_instruction hi
          rw [instructions_cons_instruction] at hroom ⊢
          rw [List.length_cons] at hroom
          have hlt : parser.outputSize < capacity := by omega
          obtain ⟨out, hperform⟩ := perform_two stale { parser with lexer := next } inst hp hlt
          rw [hperform]
          obtain ⟨printed, hrest⟩ := ih { parser with
            lexer := next
            symbolTable := (parserEncodeInstruction (stale parser.currentAddress) parser.symbolTable
              inst).2.1
            output := parser.output.set ⟨parser.outputSize, hlt⟩
              (parserEncodeInstruction (stale parser.currentAddress) parser.symbolTable inst).1
            outputSize := parser.outputSize + 1
            currentAddress := parser.currentAddress + 1#32
            printed := out } hp he (by simp only; omega)
          refine ⟨printed, hrest.trans ?_⟩
          rw [putOutput_set, ← ofNat_succ_add]
          simp only [encodeAll, List.length_cons, Nat.add_assoc, Nat.add_comm 1]
      | stuck next =>
        rw [parseLine_stuck hl]
        exact ⟨parser.printed, by
          simp [readLines, parserCurrentToken, h, hl, instructions, encodeAll, putOutput_nil, ← he]⟩
      | fail message next =>
        rw [parseLine_fail hl]
        exact ⟨_, by
          simp [readLines, parserCurrentToken, h, hl, instructions, encodeAll, putOutput_nil]; rfl⟩

/-- Without room for all instructions the second pass ends in an error. -/
theorem parserPass_two_full (parser : Parser capacity) (fuel : ℕ) (hp : parser.pass = 2)
    (he : parser.error = false)
    (hle : parser.outputSize ≤ capacity)
    (hfull : capacity < parser.outputSize +
      (instructions (readLines fuel parser.lexer).lines).length) :
    (parserPass stale fuel parser).error = true := by
  induction fuel generalizing parser with
  | zero => simp [readLines, instructions] at hfull; omega
  | succ fuel ih =>
    by_cases h : (lexerPeekToken parser.lexer).1.type = .eof
    · rw [readLines_eof h] at hfull
      simp [instructions] at hfull
      omega
    · rcases readLine_cases h with ⟨line, next, hl, -⟩ | hs | ⟨message, next, hl⟩
      · rw [parserPass_line he h, parseLine_ok hl]
        rw [readLines_ok h hl] at hfull
        cases hi : line.instruction? with
        | none =>
          rw [instructions_cons_none _ hi] at hfull
          rw [perform_two_other { parser with lexer := next } hp hi]
          exact ih { parser with lexer := next } hp he hle hfull
        | some inst =>
          cases Line.eq_instruction hi
          rw [instructions_cons_instruction, List.length_cons] at hfull
          by_cases hlt : parser.outputSize < capacity
          · obtain ⟨out, hperform⟩ := perform_two stale { parser with lexer := next } inst hp hlt
            rw [hperform]
            exact ih _ hp he (by simp only; omega) (by simp only; omega)
          · obtain ⟨hdone, herr⟩ := perform_two_full stale { parser with lexer := next } inst hp
              hlt
            simp [hdone, herr]
      · rw [readLines_stuck h hs] at hfull
        simp [instructions] at hfull
        omega
      · rw [readLines_fail h hl] at hfull
        simp [instructions] at hfull
        omega

/-- The instructions of a source text. -/
def sourceInstructions (input : List Byte) : List ParsedInstruction :=
  instructions (readSource input).lines

/-- The symbol table after the first pass over a text. -/
def sourceTable (table : SymbolTable) (input : List Byte) : SymbolTable :=
  (defineLines (table, 0#32) (readSource input).lines).1

/-- The words of a text, and the symbol table after the second pass. -/
def sourceWords (stale : ℕ → Word → ℕ → Word) (table : SymbolTable) (input : List Byte) :
    List Word × SymbolTable :=
  encodeAll (stale 2) 0#32 (sourceTable table input) (sourceInstructions input)

/-- The symbol table when the second pass comes to instruction `i`. -/
def tableBefore (stale : ℕ → Word → ℕ → Word) (table : SymbolTable) (input : List Byte) (i : ℕ) :
    SymbolTable :=
  (encodeAll (stale 2) 0#32 (sourceTable table input) ((sourceInstructions input).take i)).2

section parse

variable (stale : ℕ → Word → ℕ → Word) {input : List Byte} (table : SymbolTable)
  (output : CArray Word capacity)

theorem firstPass_eq (input : List Byte) :
    ∃ printed, firstPass stale (parserInit input table output) =
    { parserInit input table output with
      lexer := (readSource input).lexer
      error := (readSource input).ending = .failed
      symbolTable := sourceTable table input
      currentAddress := (defineLines (table, 0#32) (readSource input).lines).2
      printed := printed } := by
  obtain ⟨printed, h⟩ := parserPass_one (stale 1) (parserInit input table output)
    ((lexerInit input).left + 1) rfl rfl
  have hl : (parserInit input table output).lexer = lexerInit input := rfl
  rw [hl, readSource_eq] at h
  exact ⟨printed, h⟩

theorem firstPass_lexer :
    (firstPass stale (parserInit input table output)).lexer = (readSource input).lexer := by
  obtain ⟨printed, h⟩ := firstPass_eq stale table output input
  rw [h]

theorem firstPass_error :
    (firstPass stale (parserInit input table output)).error = true ↔
      (readSource input).ending = .failed := by
  obtain ⟨printed, h⟩ := firstPass_eq stale table output input
  simp [h]

theorem readSource_input (h : (readSource input).ending ≠ .failed) :
    (readSource input).lexer.input = input := by
  rw [← readSource_eq] at h ⊢
  exact readLines_input _ h

/-- The second pass starts over on the text, with the first pass's symbols. -/
theorem secondPass_start (h : (readSource input).ending ≠ .failed) :
    ∃ parser : Parser capacity,
      secondPass stale (firstPass stale (parserInit input table output)) =
        parserPass (stale 2) ((lexerInit input).left + 1) parser ∧
      parser.lexer = lexerInit input ∧ parser.symbolTable = sourceTable table input ∧
      parser.output = output ∧ parser.outputSize = 0 ∧ parser.currentAddress = 0#32 ∧
      parser.pass = 2 ∧ parser.error = false := by
  obtain ⟨printed, hfirst⟩ := firstPass_eq stale table output input
  simp only [secondPass, runPass, hfirst, readSource_input h]
  exact ⟨_, rfl, by simp [h, parserInit]⟩

/-- The second pass of a text that is read without error and fits the output. -/
theorem secondPass_eq (h : (readSource input).ending ≠ .failed)
    (hroom : (sourceInstructions input).length ≤ capacity) :
    let parser := secondPass stale (firstPass stale (parserInit input table output))
    parser.lexer = (readSource input).lexer ∧ parser.error = false ∧
      parser.symbolTable = (sourceWords stale table input).2 ∧
      parser.output = putOutput output 0 (sourceWords stale table input).1 ∧
      parser.outputSize = (sourceInstructions input).length := by
  obtain ⟨parser, hsecond, hl, ht, ho, hs, ha, hp, he⟩ := secondPass_start stale
    table output h
  obtain ⟨printed, hpass⟩ := parserPass_two (stale 2) parser
    ((lexerInit input).left + 1) hp he (by rw [hl, hs, readSource_eq, Nat.zero_add]; exact hroom)
  rw [hl, readSource_eq] at hpass
  rw [hsecond, hpass]
  rw [ht, ho, hs, ha]
  exact ⟨rfl, decide_eq_false h, rfl, rfl, Nat.zero_add _⟩

theorem secondPass_full (h : (readSource input).ending ≠ .failed)
    (hfull : capacity < (sourceInstructions input).length) :
    (secondPass stale (firstPass stale (parserInit input table output))).error = true := by
  obtain ⟨parser, hsecond, hl, -, -, hs, -, hp, he⟩ := secondPass_start stale
    table output h
  rw [hsecond]
  exact parserPass_two_full _ _ hp he (by omega)
    (by rw [hl, hs, readSource_eq, Nat.zero_add]; exact hfull)

/-- `parser_parse` reports success exactly if the reading meets no error and the words fit. -/
theorem parserParse_iff (input : List Byte) :
    (parserParse stale (parserInit input table output)).1 = true ↔
      (readSource input).ending ≠ .failed ∧ (sourceInstructions input).length ≤ capacity := by
  unfold parserParse
  dsimp only
  by_cases h : (readSource input).ending = .failed
  · simp [(firstPass_error stale table output).mpr h, h]
  · have hfirst : ¬ (firstPass stale (parserInit input table output)).error = true :=
      fun he => h ((firstPass_error stale table output).mp he)
    rw [if_neg hfirst]
    by_cases hroom : (sourceInstructions input).length ≤ capacity
    · simp [(secondPass_eq stale table output h hroom).2.1, h, hroom]
    · simp [secondPass_full stale table output h (by omega), hroom]

variable {stale table output}

/-- What a successful `parser_parse` leaves. -/
theorem parserParse_eq (h : (parserParse stale (parserInit input table output)).1 = true) :
    let parser := (parserParse stale (parserInit input table output)).2
    parser.lexer = (readSource input).lexer ∧
      parser.symbolTable = (sourceWords stale table input).2 ∧
      parser.output = putOutput output 0 (sourceWords stale table input).1 ∧
      parser.outputSize = (sourceInstructions input).length := by
  obtain ⟨hread, hroom⟩ := (parserParse_iff stale table output input).mp h
  have hfirst : ¬ (firstPass stale (parserInit input table output)).error = true :=
    fun he => hread ((firstPass_error stale table output).mp he)
  obtain ⟨hl, -, ht, ho, hs⟩ := secondPass_eq stale table output hread hroom
  simp only [parserParse, if_neg hfirst]
  exact ⟨hl, ht, ho, hs⟩

theorem length_sourceWords :
    (sourceWords stale table input).1.length = (sourceInstructions input).length :=
  length_encodeAll ..

/-- Word `i` of a text encodes its instruction `i`. -/
theorem sourceWords_getElem (stale : ℕ → Word → ℕ → Word) (table : SymbolTable) {i : ℕ}
    {inst : ParsedInstruction} (hi : (sourceInstructions input)[i]? = some inst) :
    (sourceWords stale table input).1[i]? = some
      (parserEncodeInstruction (stale 2 (BitVec.ofNat 32 i)) (tableBefore stale table input i)
        inst).1 := by
  obtain ⟨hlt, rfl⟩ := List.getElem?_eq_some_iff.mp hi
  have hword := encodeAll_getElem (stale 2) 0#32 (sourceTable table input)
    (sourceInstructions input) hlt
  rwa [BitVec.zero_add] at hword

theorem parserParse_word (h : (parserParse stale (parserInit input table output)).1 = true) {i : ℕ}
    {inst : ParsedInstruction} (hi : (sourceInstructions input)[i]? = some inst) :
    ∃ hc : i < capacity, (parserParse stale (parserInit input table output)).2.output ⟨i, hc⟩ =
      (parserEncodeInstruction (stale 2 (BitVec.ofNat 32 i)) (tableBefore stale table input i)
        inst).1 := by
  have hroom := ((parserParse_iff _ _ _ _).mp h).2
  obtain ⟨hlt, -⟩ := List.getElem?_eq_some_iff.mp hi
  obtain ⟨hw, hword⟩ := List.getElem?_eq_some_iff.mp (sourceWords_getElem stale table hi)
  refine ⟨by omega, ?_⟩
  rw [(parserParse_eq h).2.2.1, putOutput_zero _ hw]
  exact hword

end parse

end Dez.Assembler
