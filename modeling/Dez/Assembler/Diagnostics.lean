import Dez.Assembler.Format
import Dez.Assembler.Positions
import Dez.Assembler.Termination

/-! The messages of a failed assembly, and the tokens that they point at. -/
namespace Dez.Assembler

variable {α β : Type} {input : List Byte} {lexer next : Lexer} {message : Message}

/-- The line and the column that `parser_error` and `parser_expected` print. -/
def Message.position : Message → Option (ℕ × ℕ)
  | .error line column _ => some (line, column)
  | .expected line column _ _ => some (line, column)
  | _ => none

/-- The messages that stand for a `false` of `assembler_assemble_file`. -/
def Message.fatal (message : Message) : Bool :=
  match message with
  | .error .. | .expected .. | .stringDataExceeds | .couldNotRead .. | .couldNotWrite .. => true
  | _ => false

/-- The message has the token's place, and the type it says was found is the token's. -/
def Blames (token : Token) : Message → Prop
  | .error line column _ => (line, column) = (token.line, token.column)
  | .expected line column _ got =>
    (line, column) = (token.line, token.column) ∧ got = tokenTypeToString token.type
  | _ => False

theorem Blames.position {token : Token} (h : Blames token message) :
    message.position = some (token.line, token.column) := by
  cases message with
  | error line column text => exact congrArg some h
  | expected line column expected got => exact congrArg some h.1
  | _ => exact h.elim

theorem Blames.fatal {token : Token} (h : Blames token message) : message.fatal = true := by
  cases message with
  | error | expected => rfl
  | _ => exact h.elim

/-- What a parsing function reports is about the token that the lexer is in front of. -/
def Outcome.Blames (outcome : Outcome α) : Prop :=
  ∀ message lexer, outcome = .fail message lexer →
    Assembler.Blames (lexerPeekToken lexer).1 message

theorem blames_ok (value : α) (lexer : Lexer) : (Outcome.ok value lexer).Blames := nofun

theorem blames_fail (h : Assembler.Blames (lexerPeekToken lexer).1 message) :
    (Outcome.fail (α := α) message lexer).Blames := by
  intro _ _ hfail
  cases hfail
  exact h

theorem blames_bind {outcome : Outcome α} {f : α → Lexer → Outcome β} (h : outcome.Blames)
    (hf : ∀ value lexer, (f value lexer).Blames) : (outcome.bind f).Blames := by
  cases outcome with
  | ok value lexer => exact hf value lexer
  | stuck lexer => exact nofun
  | fail message lexer => exact blames_fail (h message lexer rfl)

theorem error_blames (lexer : Lexer) (text : String) :
    (parserError (α := α) lexer text).Blames := by
  intro message next hfail
  simp only [parserError, parserCurrentToken, Outcome.fail.injEq] at hfail
  obtain ⟨rfl, rfl⟩ := hfail
  rw [peek_peek]
  exact rfl

theorem expected_blames (lexer : Lexer) (expected : String) :
    (parserExpected (α := α) lexer expected).Blames := by
  intro message next hfail
  simp only [parserExpected, parserCurrentToken, Outcome.fail.injEq] at hfail
  obtain ⟨rfl, rfl⟩ := hfail
  rw [peek_peek]
  exact ⟨rfl, rfl⟩

theorem memoryOperand_blames (lexer : Lexer) : (parserParseMemoryOperand lexer).Blames := by
  unfold parserParseMemoryOperand
  dsimp only
  split
  · exact expected_blames _ _
  · split
    · exact blames_ok _ _
    · exact expected_blames _ _

theorem operand_blames (lexer : Lexer) : (parserParseOperand lexer).Blames := by
  unfold parserParseOperand
  dsimp only
  split
  · exact blames_ok _ _
  · exact blames_ok _ _
  · exact blames_ok _ _
  · split
    · exact blames_ok _ _
    · exact blames_ok _ _
    · exact memoryOperand_blames _
    · exact expected_blames _ _
  · exact memoryOperand_blames _
  · exact blames_ok _ _
  · exact expected_blames _ _

theorem operands_blames (i n : ℕ) (lexer : Lexer) : (parserParseOperands i n lexer).Blames := by
  induction n generalizing i lexer with
  | zero => exact blames_ok _ _
  | succ n ih =>
    unfold parserParseOperands
    split
    · exact expected_blames _ _
    · refine blames_bind (operand_blames _) fun operand lexer => ?_
      exact blames_bind (ih (i + 1) lexer) fun operands lexer => blames_ok _ _

theorem instruction_blames (lexer : Lexer) : (parserParseInstruction lexer).Blames := by
  unfold parserParseInstruction
  dsimp only
  split
  · exact nofun
  · split
    · exact error_blames _ _
    · exact blames_bind (operands_blames _ _ _) fun operands lexer => blames_ok _ _

theorem constant_blames (lexer : Lexer) : (parserParseConstant lexer).Blames := by
  unfold parserParseConstant
  dsimp only
  split
  · exact expected_blames _ _
  · split
    · exact expected_blames _ _
    · exact blames_ok _ _

theorem readLine_blames (lexer : Lexer) : (readLine lexer).Blames := by
  rw [readLine_eq]
  dsimp only
  split_ifs
  · exact blames_ok _ _
  · exact blames_ok _ _
  · exact blames_ok _ _
  · exact constant_blames _
  · exact blames_bind (instruction_blames _) fun inst lexer => blames_ok _ _

section tokens

/-- The token that call `k` of `lexer_next_token` returns. -/
def tokenOf (input : List Byte) (k : ℕ) : Token := (lexerNextToken (lexerAfter input k)).1

/-- The lexer without its buffered token. -/
def Lexer.unbuffered (lexer : Lexer) : Lexer :=
  { lexer with currentToken := (lexerInit []).currentToken, hasToken := false }

theorem rest_unbuffered (lexer : Lexer) : lexer.unbuffered.rest = lexer.rest := rfl

theorem skip_unbuffered (lexer : Lexer) (n : ℕ) :
    lexer.unbuffered.skip n = (lexer.skip n).unbuffered := rfl

theorem skipWhitespace_unbuffered (lexer : Lexer) :
    lexerSkipWhitespace lexer.unbuffered = (lexerSkipWhitespace lexer).unbuffered := by
  simp only [lexerSkipWhitespace, lexerSkipComment, rest_unbuffered, skip_unbuffered,
    apply_ite Lexer.unbuffered]
  rfl

theorem nextToken_unbuffered (h : lexer.hasToken = false) :
    lexerNextToken lexer.unbuffered =
      ((lexerNextToken lexer).1, (lexerNextToken lexer).2.unbuffered) := by
  have hoff : lexer.unbuffered.hasToken = false := rfl
  simp only [lexerNextToken, h, hoff, Bool.false_eq_true, if_false, skipWhitespace_unbuffered,
    rest_unbuffered]
  split <;> rfl

/-- However the parser looks and takes, it goes through the tokens in order. -/
theorem calls_token (h : Calls (lexerInit input) lexer) : ∃ k,
    (lexerPeekToken lexer).1 = tokenOf input k ∧
    lexer.unbuffered = lexerAfter input (if lexer.hasToken then k + 1 else k) := by
  induction h with
  | refl =>
    have hoff : (lexerInit input).hasToken = false := rfl
    have hstart : lexerAfter input 0 = lexerInit input := rfl
    refine ⟨0, ?_, ?_⟩
    · rw [peek_of_not_hasToken hoff, tokenOf, hstart]
    · rw [hoff, if_neg Bool.false_ne_true, hstart]
      rfl
  | @peek last _ ih =>
    obtain ⟨k, htoken, hat⟩ := ih
    refine ⟨k, by rwa [peek_peek], ?_⟩
    rw [if_pos (hasToken_peek last)]
    cases hbuffer : last.hasToken with
    | true =>
      rw [hbuffer, if_pos rfl] at hat
      rwa [peek_of_hasToken hbuffer]
    | false =>
      rw [hbuffer, if_neg Bool.false_ne_true] at hat
      have hnext := congrArg Prod.snd (nextToken_unbuffered hbuffer)
      rw [peek_of_not_hasToken hbuffer, lexerAfter_succ, ← hat]
      exact hnext.symm
  | @next last _ ih =>
    obtain ⟨k, htoken, hat⟩ := ih
    have hoff : (lexerNextToken last).2.hasToken = false := by
      cases hbuffer : last.hasToken with
      | true => simp [lexerNextToken, hbuffer]
      | false => exact (nextToken_forward hbuffer).2.1
    have hat' : (lexerNextToken last).2.unbuffered = lexerAfter input (k + 1) := by
      cases hbuffer : last.hasToken with
      | true =>
        rw [hbuffer, if_pos rfl] at hat
        simp only [lexerNextToken, hbuffer, if_true]
        exact hat
      | false =>
        rw [hbuffer, if_neg Bool.false_ne_true] at hat
        have hnext := congrArg Prod.snd (nextToken_unbuffered hbuffer)
        rw [lexerAfter_succ, ← hat]
        exact hnext.symm
    refine ⟨k + 1, ?_, ?_⟩
    · have hnext := congrArg Prod.fst (nextToken_unbuffered hoff)
      rw [peek_of_not_hasToken hoff, tokenOf, ← hat']
      exact hnext.symm
    · rw [hoff, if_neg Bool.false_ne_true]
      exact hat'

end tokens

section reports

variable {capacity : ℕ} {stale : Word → ℕ → Word} {parser : Parser capacity}

/-- The fatal messages of an output. -/
def reports (printed : List Message) : List Message := printed.filter Message.fatal

theorem reports_append (printed out : List Message) :
    reports (printed ++ out) = reports printed ++ reports out :=
  List.filter_append ..

theorem add_harmless (table : SymbolTable) (name : List Byte) (type : SymbolType)
    (address value : Word) (stringValue : Option (List Byte)) (line : ℕ) :
    reports (symbolTableAdd table name type address value stringValue line).2.2 = [] := by
  unfold symbolTableAdd
  split
  · dsimp only
    split <;> rfl
  · rfl

theorem encode_harmless (stale : ℕ → Word) (table : SymbolTable) (inst : ParsedInstruction) :
    reports (parserEncodeInstruction stale table inst).2.2 = [] := by
  unfold parserEncodeInstruction
  split
  · split
    · exact add_harmless ..
    · rfl
  all_goals first | rfl | (split <;> rfl)

/-- Between two states of the parser one fatal message is printed if the later one is an error, and
none otherwise. -/
def Reports (parser next : Parser capacity) : Prop :=
  if next.error then
    ∃ message, reports next.printed = reports parser.printed ++ [message] ∧
      Blames (lexerPeekToken next.lexer).1 message
  else reports next.printed = reports parser.printed

theorem reports_silent {next : Parser capacity} (herror : next.error = false)
    (hprinted : reports next.printed = reports parser.printed) : Reports parser next := by
  rw [Reports, if_neg (by simp [herror])]
  exact hprinted

theorem fail_reports (h : Blames (lexerPeekToken lexer).1 message) {printed : List Message}
    (hprinted : reports printed = reports parser.printed) {next : Parser capacity}
    (hlexer : next.lexer = lexer) (herror : next.error = true)
    (hnext : next.printed = printed ++ [message]) : Reports parser next := by
  rw [Reports, if_pos herror, hnext, reports_append, hprinted, hlexer]
  exact ⟨message, by rw [reports, reports, List.filter_singleton, h.fatal]; rfl, h⟩

theorem define_reports {result : Bool × SymbolTable × List Message} (h : reports result.2.2 = []) :
    reports (parser.define result).printed = reports parser.printed := by
  change reports (parser.printed ++ result.2.2) = _
  rw [reports_append, h, List.append_nil]

/-- Only a full output is an error of the second pass's own. -/
theorem emit_reports (stale : Word → ℕ → Word) (he : parser.error = false)
    (inst : ParsedInstruction) :
    Reports parser (parser.emit stale inst).2 ∧
      ((parser.emit stale inst).1 = true → (parser.emit stale inst).2.error = false) := by
  have hprinted := encode_harmless (stale parser.currentAddress) parser.symbolTable inst
  have hsame : reports (parser.printed ++
      (parserEncodeInstruction (stale parser.currentAddress) parser.symbolTable inst).2.2) =
      reports parser.printed := by
    rw [reports_append, hprinted, List.append_nil]
  have hblames := error_blames (α := Unit) parser.lexer "Output buffer overflow"
  unfold Parser.emit
  dsimp only [Parser.print]
  split
  · exact ⟨reports_silent he hsame, fun _ => he⟩
  · exact ⟨fail_reports (hblames _ _ rfl) hsame rfl rfl rfl, nofun⟩

theorem perform_reports (stale : Word → ℕ → Word) (he : parser.error = false) (line : Line) :
    Reports parser (parser.perform stale line).2 ∧
      ((parser.perform stale line).1 = true → (parser.perform stale line).2.error = false) := by
  cases line with
  | blank => exact ⟨reports_silent he rfl, fun _ => he⟩
  | label name line =>
    simp only [Parser.perform]
    split
    · exact ⟨reports_silent he (define_reports (add_harmless ..)), fun _ => he⟩
    · exact ⟨reports_silent he rfl, fun _ => he⟩
  | constant name value line =>
    simp only [Parser.perform]
    split
    · exact ⟨reports_silent he (define_reports (add_harmless ..)), fun _ => he⟩
    · exact ⟨reports_silent he rfl, fun _ => he⟩
  | instruction inst =>
    simp only [Parser.perform]
    split
    · have hemit := emit_reports stale he inst
      cases hdone : (parser.emit stale inst).1 with
      | true =>
        have herror := hemit.2 hdone
        exact ⟨by simpa [Reports, herror] using hemit.1, fun _ => herror⟩
      | false => exact ⟨hemit.1, fun h => absurd h Bool.false_ne_true⟩
    · exact ⟨reports_silent he rfl, fun _ => he⟩

theorem line_reports (stale : Word → ℕ → Word) (he : parser.error = false) :
    Reports parser (parserParseLineWithLabels stale parser).2 ∧
      ((parserParseLineWithLabels stale parser).1 = true →
        (parserParseLineWithLabels stale parser).2.error = false) := by
  have hblames := readLine_blames parser.lexer
  unfold parserParseLineWithLabels
  cases hread : readLine parser.lexer with
  | ok line lexer => exact @perform_reports capacity { parser with lexer := lexer } stale he line
  | stuck lexer => exact ⟨reports_silent he rfl, nofun⟩
  | fail message lexer =>
    exact ⟨fail_reports (hblames message lexer hread) rfl rfl rfl rfl, nofun⟩

theorem pass_reports (stale : Word → ℕ → Word) (fuel : ℕ) (he : parser.error = false) :
    Reports parser (parserPass stale fuel parser) := by
  induction fuel generalizing parser with
  | zero => exact reports_silent he rfl
  | succ fuel ih =>
    by_cases heof : (lexerPeekToken parser.lexer).1.type = .eof
    · rw [parserPass_eof he heof]
      exact reports_silent he rfl
    · rw [parserPass_line he heof]
      obtain ⟨hline, hdone⟩ := @line_reports capacity
        { parser with lexer := (lexerPeekToken parser.lexer).2 } stale he
      dsimp only
      split
      · rename_i hok
        have herror := hdone hok
        rw [Reports, if_neg (by simp [herror])] at hline
        have hrest := ih herror
        unfold Reports at hrest ⊢
        rwa [hline] at hrest
      · exact hline

/-- The fatal message between two states, if there is one, is about a token of the text. -/
def ReportsToken (input : List Byte) (parser next : Parser capacity) : Prop :=
  if next.error then
    ∃ message k, reports next.printed = reports parser.printed ++ [message] ∧
      Blames (tokenOf input k) message
  else reports next.printed = reports parser.printed

theorem pass_token (stale : Word → ℕ → Word) (he : parser.error = false)
    (hlexer : parser.lexer = lexerInit input) :
    ReportsToken input parser (parserPass stale (parser.lexer.left + 1) parser) := by
  have hends : LoopEnds (passTurn stale) parser (parserPass stale (parser.lexer.left + 1) parser) :=
    pass_ends (Nat.lt_succ_self _)
  have hcalls : Calls (lexerInit input)
      (parserPass stale (parser.lexer.left + 1) parser).lexer := by
    rw [← hlexer]
    exact ends_calls hends
  obtain ⟨k, htoken, -⟩ := calls_token hcalls
  have hreports := pass_reports stale (parser.lexer.left + 1) he
  unfold Reports at hreports
  unfold ReportsToken
  split at hreports
  · rename_i herror
    obtain ⟨message, hprinted, hblames⟩ := hreports
    rw [if_pos herror]
    exact ⟨message, k, hprinted, htoken ▸ hblames⟩
  · rename_i herror
    rwa [if_neg herror]

theorem firstPass_token (stale : ℕ → Word → ℕ → Word) (input : List Byte) (table : SymbolTable)
    (output : CArray Word capacity) :
    ReportsToken input (parserInit input table output)
      (firstPass stale (parserInit input table output)) ∧
    (firstPass stale (parserInit input table output)).lexer.input = input := by
  have hends : LoopEnds (passTurn (stale 1)) { parserInit input table output with pass := 1 }
      (firstPass stale (parserInit input table output)) := pass_ends (Nat.lt_succ_self _)
  exact ⟨@pass_token input capacity { parserInit input table output with pass := 1 } (stale 1) rfl
    rfl, (ends_calls hends).leads.input⟩

theorem secondPass_token (stale : ℕ → Word → ℕ → Word) (he : parser.error = false)
    (hinput : parser.lexer.input = input) :
    ReportsToken input parser (secondPass stale parser) :=
  @pass_token input capacity { parser with
    pass := 2, currentAddress := 0#32, outputSize := 0,
    lexer := lexerInit parser.lexer.input } (stale 2) he (by rw [hinput])

/-- `parser_parse` reports one token of the text if it fails, and none if it succeeds. -/
theorem parse_reports (stale : ℕ → Word → ℕ → Word) (input : List Byte) (table : SymbolTable)
    (output : CArray Word capacity) :
    let result := parserParse stale (parserInit input table output)
    if result.1 then reports result.2.printed = []
    else ∃ message k, reports result.2.printed = [message] ∧ Blames (tokenOf input k) message := by
  obtain ⟨hfirst, hinput⟩ := firstPass_token stale input table output
  have hempty : reports (parserInit input table output).printed = [] := rfl
  unfold parserParse
  generalize firstPass stale (parserInit input table output) = first at hfirst hinput
  dsimp only
  rw [ReportsToken, hempty] at hfirst
  split at hfirst
  · rename_i herror
    rw [if_pos herror, if_neg Bool.false_ne_true]
    exact hfirst
  · rename_i herror
    have hsecond := secondPass_token stale (Bool.not_eq_true _ ▸ herror) hinput
    rw [ReportsToken, hfirst] at hsecond
    rw [if_neg herror]
    dsimp only
    split at hsecond
    · rename_i hfailed
      rw [if_neg (by simp [hfailed])]
      exact hsecond
    · rename_i hok
      rw [if_pos (by simpa using hok)]
      exact hsecond

theorem note_reports {assembler : DezAssembler capacity} {out : List Message}
    (h : reports out = []) : reports (assembler.note out).printed = reports assembler.printed := by
  unfold DezAssembler.note
  split
  · change reports (assembler.printed ++ out) = _
    rw [reports_append, h, List.append_nil]
  · rfl

/-- The loop over the strings reports the first one that goes beyond the output. -/
theorem appendStrings_reports {symbols : List Symbol} {assembler assembler' : DezAssembler capacity}
    {success : Bool} (h : appendStrings symbols assembler = .ok (success, assembler')) :
    (success = true → reports assembler'.printed = reports assembler.printed) ∧
    (success = false →
      reports assembler'.printed = reports assembler.printed ++ [.stringDataExceeds] ∧
        ∃ sym ∈ symbols, sym.isString = true ∧ capacity * 4 < sym.endAddr.toNat) := by
  induction symbols generalizing assembler with
  | nil =>
    cases h
    exact ⟨fun _ => rfl, fun h => absurd h.symm Bool.false_ne_true⟩
  | cons sym symbols ih =>
    unfold appendStrings at h
    split at h
    · rename_i hstring
      split at h
      · rename_i hexceeds
        cases h
        exact ⟨fun h => absurd h Bool.false_ne_true,
          fun _ => ⟨reports_append .., sym, List.mem_cons_self, hstring, hexceeds⟩⟩
      · obtain ⟨buffer, -, hrest⟩ := bind_eq_ok h
        obtain ⟨htrue, hfalse⟩ := ih hrest
        rw [note_reports rfl] at htrue hfalse
        refine ⟨htrue, fun hfailed => ?_⟩
        obtain ⟨hprinted, late, hmem, hlate⟩ := hfalse hfailed
        exact ⟨hprinted, late, List.mem_cons_of_mem _ hmem, hlate⟩
    · obtain ⟨htrue, hfalse⟩ := ih h
      refine ⟨htrue, fun hfailed => ?_⟩
      obtain ⟨hprinted, late, hmem, hlate⟩ := hfalse hfailed
      exact ⟨hprinted, late, List.mem_cons_of_mem _ hmem, hlate⟩

/-- Without a string that spans lines before it, a token is where it says. -/
theorem placed_of_no_spans {k : ℕ}
    (h : ∀ i < k, ¬ SpansLines (skipBlanks (lexerAfter input i).rest)) : Placed input k := by
  rw [placed_iff]
  induction k with
  | zero => exact ⟨rfl, rfl⟩
  | succ k ih =>
    rw [lexerAfter_succ, synced_nextToken_iff (lexerAfter_forward input k).2
      (ih fun i hi => h i (hi.trans (Nat.lt_succ_self k)))]
    exact h k (Nat.lt_succ_self k)

/-- What a fatal message says about the assembly that printed it. -/
inductive Explains (stale : ℕ → Word → ℕ → Word) (capacity : ℕ) (table : SymbolTable)
    (inputFile outputFile : List Byte) (contents : Option (List Byte)) (writable : Bool) :
    Message → Prop
  | notRead (hcontents : contents = none) :
    Explains stale capacity table inputFile outputFile contents writable (.couldNotRead inputFile)
  | notWritten {input : List Byte} (hcontents : contents = some input)
      (hwritable : writable = false) :
    Explains stale capacity table inputFile outputFile contents writable (.couldNotWrite outputFile)
  | token {input : List Byte} {message : Message} {k : ℕ} (hcontents : contents = some input)
      (hrejected : (readSource input).ending = .failed ∨
        capacity < (sourceInstructions input).length)
      (hblames : Blames (tokenOf input k) message)
      (hplace : (∀ i < k, ¬ SpansLines (skipBlanks (lexerAfter input i).rest)) →
        message.position =
          some (lineBehind (beforeToken input k), columnBehind (beforeToken input k))) :
    Explains stale capacity table inputFile outputFile contents writable message
  | strings {input : List Byte} {sym : Symbol} (hcontents : contents = some input)
      (hmem : sym ∈ (sourceWords stale table input).2.symbols)
      (hstring : sym.isString = true) (hlate : capacity * 4 < sym.endAddr.toNat) :
    Explains stale capacity table inputFile outputFile contents writable .stringDataExceeds

section file

variable {stale : ℕ → Word → ℕ → Word} {assembler assembler' : DezAssembler capacity}
  {inputFile outputFile : List Byte} {contents : Option (List Byte)} {writable success : Bool}
  {file : Option (List Byte)}

theorem assembleString_explained
    (h : assemblerAssembleString stale assembler input = .ok (success, assembler')) :
    (success = true → reports assembler'.printed = reports assembler.printed) ∧
    (success = false →
      ∃ message, reports assembler'.printed = reports assembler.printed ++ [message] ∧
        Explains stale capacity assembler.symbolTable inputFile outputFile (some input) writable
          message) := by
  have hparse := parse_reports stale input assembler.symbolTable assembler.outputBuffer
  simp only [assemblerAssembleString, symbolTable_note, outputBuffer_note] at h
  dsimp only at hparse
  split at h
  · rename_i hok
    rw [if_pos hok] at hparse
    obtain ⟨⟨appended, last⟩, happend, hrest⟩ := bind_eq_ok h
    obtain ⟨words, -, hlast⟩ := bind_eq_ok hrest
    cases hlast
    obtain ⟨htrue, hfalse⟩ := appendStrings_reports happend
    have hstart : reports ((assembler.note [.starting]).printed ++ (parserParse stale
        (parserInit input assembler.symbolTable assembler.outputBuffer)).2.printed) =
        reports assembler.printed := by
      rw [reports_append, hparse, List.append_nil, note_reports rfl]
    have hnote : reports (last.note [.completed, .symbols last.symbolTable.symbols,
        .generatedCode words]).printed = reports last.printed := note_reports rfl
    rw [hnote]
    refine ⟨fun hdone => (htrue hdone).trans hstart, fun hfailed => ?_⟩
    obtain ⟨hprinted, sym, hmem, hstring, hlate⟩ := hfalse hfailed
    refine ⟨_, hprinted.trans (congrArg (· ++ _) hstart), .strings rfl ?_ hstring hlate⟩
    dsimp only [DezAssembler.print] at hmem
    rwa [← (parserParse_eq hok).2.1]
  · rename_i hfailed
    rw [if_neg hfailed] at hparse
    obtain ⟨message, k, hprinted, hblames⟩ := hparse
    cases h
    have hrejected : (readSource input).ending = .failed ∨
        capacity < (sourceInstructions input).length := by
      rw [parserParse_iff, not_and_or, not_not, Nat.not_le] at hfailed
      exact hfailed
    refine ⟨nofun, fun _ => ⟨message, ?_, .token rfl hrejected hblames fun hspans => ?_⟩⟩
    · change reports ((assembler.note [.starting]).printed ++ (parserParse stale
        (parserInit input assembler.symbolTable assembler.outputBuffer)).2.printed ++
          [.assemblyFailed]) = _
      have hlast : reports [.assemblyFailed] = [] := rfl
      rw [reports_append, reports_append, hprinted, hlast, List.append_nil, note_reports rfl]
    · obtain ⟨hline, hcolumn⟩ := placed_of_no_spans hspans
      rw [hblames.position, tokenOf, hline, hcolumn]

/-- A failure of the assembler prints one fatal message, which says why, and a success none. -/
theorem failures_explained (h : assemblerAssembleFile stale assembler inputFile outputFile contents
      writable = .ok (success, file, assembler')) :
    (success = true → reports assembler'.printed = reports assembler.printed) ∧
    (success = false →
      ∃ message, reports assembler'.printed = reports assembler.printed ++ [message] ∧
        Explains stale capacity assembler.symbolTable inputFile outputFile contents writable
          message) := by
  unfold assemblerAssembleFile at h
  cases contents with
  | none =>
    cases h
    exact ⟨nofun, fun _ => ⟨_, reports_append .., .notRead rfl⟩⟩
  | some input =>
    obtain ⟨⟨assembled, last⟩, hassemble, hrest⟩ := bind_eq_ok h
    obtain ⟨htrue, hfalse⟩ := @assembleString_explained input capacity stale _ _ inputFile
      outputFile writable _ hassemble
    rw [note_reports rfl] at htrue hfalse
    rw [symbolTable_note] at hfalse
    cases assembled with
    | false =>
      cases hrest
      exact ⟨nofun, fun _ => hfalse rfl⟩
    | true =>
      cases writable with
      | false =>
        cases hrest
        refine ⟨nofun, fun _ => ⟨_, ?_, .notWritten rfl rfl⟩⟩
        exact (reports_append ..).trans (congrArg (· ++ _) (htrue rfl))
      | true =>
        have hdone : reports (last.print [.assembled last.outputSize outputFile]).printed =
            reports assembler.printed := by
          change reports (last.printed ++ _) = _
          rw [reports_append, htrue rfl]
          exact List.append_nil _
        dsimp only at hrest
        rw [if_neg (by decide), if_neg (by decide)] at hrest
        split at hrest
        · obtain ⟨written, -, hlast⟩ := bind_eq_ok hrest
          cases hlast
          exact ⟨fun _ => hdone, nofun⟩
        · obtain ⟨written, -, hlast⟩ := bind_eq_ok hrest
          cases hlast
          exact ⟨fun _ => hdone, nofun⟩

theorem assembleFile_of_not_parsed (h : (parserParse stale
      (parserInit input assembler.symbolTable assembler.outputBuffer)).1 = false) :
    ∃ assembler', assemblerAssembleFile stale assembler inputFile outputFile (some input) writable =
      .ok (false, none, assembler') := by
  simp only [assemblerAssembleFile, assemblerAssembleString, symbolTable_note, outputBuffer_note, h]
  exact ⟨_, rfl⟩

/-- `MOV` without operands. -/
theorem failures_explained_mov :
    let start : DezAssembler 1 := assemblerInit false fun _ => 0#32
    ∃ assembler' message, assemblerAssembleFile (fun _ _ _ => 0#32) start (bytes "a.asm")
        (bytes "a.bin") (some (bytes "MOV")) true = .ok (false, none, assembler') ∧
      reports assembler'.printed = reports start.printed ++ [message] ∧
      Explains (fun _ _ _ => 0#32) 1 start.symbolTable (bytes "a.asm") (bytes "a.bin")
        (some (bytes "MOV")) true message := by
  intro start
  have hfailed : (parserParse (fun _ _ _ => 0#32) (parserInit (bytes "MOV") start.symbolTable
      start.outputBuffer)).1 = false := by
    rw [← Bool.not_eq_true, parserParse_iff]
    rintro ⟨hread, -⟩
    exact hread (by decide +kernel)
  obtain ⟨assembler', h⟩ := @assembleFile_of_not_parsed _ _ _ start (bytes "a.asm") (bytes "a.bin")
    true hfailed
  obtain ⟨message, hprinted, hexplains⟩ := (failures_explained h).2 rfl
  exact ⟨assembler', message, h, hprinted, hexplains⟩

end file

end reports

end Dez.Assembler
