import Dez.Loop
import Dez.Assembler.Counting
import Dez.Assembler.Spelling

/-! Assembly ends on every text, and stays within one that an `int` can count. -/
namespace Dez.Assembler

section loops

/-- One turn of the loop that skips the rest of a label's line. -/
def skipTurn (lexer : Lexer) : Lexer ⊕ Lexer :=
  let (token, lexer) := parserCurrentToken lexer
  if token.type ≠ .newline ∧ token.type ≠ .eof then .inl (parserAdvance lexer) else .inr lexer

variable {capacity : ℕ} {stale : Word → ℕ → Word} {parser next : Parser capacity}

/-- One turn of a pass. -/
def passTurn (stale : Word → ℕ → Word) (parser : Parser capacity) :
    Parser capacity ⊕ Parser capacity :=
  if parser.error then .inr parser
  else
    let (token, lexer) := parserCurrentToken parser.lexer
    let parser := { parser with lexer := lexer }
    if token.type = .eof then .inr parser
    else
      let (done, parser) := parserParseLineWithLabels stale parser
      if done then .inl parser else .inr parser

/-- Performing a line leaves the lexer alone, but for the look at the place of an overflow. -/
theorem perform_lexer (stale : Word → ℕ → Word) (parser : Parser capacity) (line : Line) :
    ((parser.perform stale line).1 = true →
      (parser.perform stale line).2.lexer = parser.lexer) ∧
    ((parser.perform stale line).1 = false →
      (parser.perform stale line).2.lexer = (lexerPeekToken parser.lexer).2) := by
  unfold Parser.perform
  cases line with
  | blank => exact ⟨fun _ => rfl, nofun⟩
  | label name line =>
    dsimp only
    split
    · exact ⟨fun _ => rfl, nofun⟩
    · exact ⟨fun _ => rfl, nofun⟩
  | constant name value line =>
    dsimp only
    split
    · exact ⟨fun _ => rfl, nofun⟩
    · exact ⟨fun _ => rfl, nofun⟩
  | instruction inst =>
    dsimp only
    split
    · unfold Parser.emit
      dsimp only
      split
      · exact ⟨fun _ => rfl, nofun⟩
      · exact ⟨nofun, fun _ => rfl⟩
    · exact ⟨fun _ => rfl, nofun⟩

/-- Where parsing a line leaves the lexer: behind the line, or where it stopped. -/
theorem parseLine_lexer (stale : Word → ℕ → Word) (parser : Parser capacity) :
    ((parserParseLineWithLabels stale parser).1 = true → ∃ line,
      readLine parser.lexer = .ok line (parserParseLineWithLabels stale parser).2.lexer) ∧
    ((parserParseLineWithLabels stale parser).1 = false →
      (∃ line next, readLine parser.lexer = .ok line next ∧
        (parserParseLineWithLabels stale parser).2.lexer = (lexerPeekToken next).2) ∨
      (∀ line next, readLine parser.lexer ≠ .ok line next) ∧
        (parserParseLineWithLabels stale parser).2.lexer = (readLine parser.lexer).final) := by
  unfold parserParseLineWithLabels
  cases hread : readLine parser.lexer with
  | ok line lexer =>
    obtain ⟨hkept, hlooked⟩ := perform_lexer stale { parser with lexer := lexer } line
    dsimp only [Parser.stop] at hkept hlooked ⊢
    refine ⟨fun hdone => ⟨line, ?_⟩, fun hstop => .inl ⟨line, lexer, rfl, hlooked hstop⟩⟩
    rw [hkept hdone]
  | stuck lexer => exact ⟨nofun, fun _ => .inr ⟨nofun, rfl⟩⟩
  | fail message lexer => exact ⟨nofun, fun _ => .inr ⟨nofun, rfl⟩⟩

theorem passTurn_again (h : passTurn stale parser = .inl next) :
    (lexerPeekToken parser.lexer).1.type ≠ .eof ∧
      (∃ line, readLine (lexerPeekToken parser.lexer).2 = .ok line next.lexer) ∧
      ∀ fuel, parserPass stale (fuel + 1) parser = parserPass stale fuel next := by
  unfold passTurn parserCurrentToken at h
  dsimp only at h
  split at h
  · cases h
  · rename_i herror
    split at h
    · cases h
    · rename_i heof
      split at h
      · rename_i hdone
        have hline := (parseLine_lexer stale
          { parser with lexer := (lexerPeekToken parser.lexer).2 }).1 hdone
        rw [Sum.inl.inj h] at hline
        refine ⟨heof, hline, fun fuel => ?_⟩
        rw [parserPass_line (Bool.not_eq_true _ ▸ herror) heof]
        dsimp only
        rw [if_pos hdone, Sum.inl.inj h]
      · cases h

/-- A pass stops with its error flag set, at the end, or at a line it does not go on from. -/
theorem passTurn_leave (h : passTurn stale parser = .inr next) :
    (next.lexer = parser.lexer ∨
      (lexerPeekToken parser.lexer).1.type = .eof ∧
        next.lexer = (lexerPeekToken parser.lexer).2 ∨
      (lexerPeekToken parser.lexer).1.type ≠ .eof ∧
        ((∃ line lexer, readLine (lexerPeekToken parser.lexer).2 = .ok line lexer ∧
          next.lexer = (lexerPeekToken lexer).2) ∨
        (∀ line lexer, readLine (lexerPeekToken parser.lexer).2 ≠ .ok line lexer) ∧
          next.lexer = (readLine (lexerPeekToken parser.lexer).2).final)) ∧
      ∀ fuel, parserPass stale (fuel + 1) parser = next := by
  unfold passTurn parserCurrentToken at h
  dsimp only at h
  split at h
  · rename_i herror
    cases h
    refine ⟨.inl rfl, fun fuel => ?_⟩
    rw [parserPass, if_pos herror]
  · rename_i herror
    have herror' := Bool.not_eq_true _ ▸ herror
    split at h
    · rename_i heof
      cases h
      exact ⟨.inr (.inl ⟨heof, rfl⟩), fun fuel => parserPass_eof herror' heof⟩
    · rename_i heof
      split at h
      · cases h
      · rename_i hdone
        have hline := (parseLine_lexer stale
          { parser with lexer := (lexerPeekToken parser.lexer).2 }).2 (Bool.not_eq_true _ ▸ hdone)
        rw [Sum.inr.inj h] at hline
        refine ⟨.inr (.inr ⟨heof, hline⟩), fun fuel => ?_⟩
        rw [parserPass_line herror' heof]
        dsimp only
        rw [if_neg hdone, Sum.inr.inj h]

theorem pass_ends {fuel : ℕ} (h : parser.lexer.left < fuel) :
    LoopEnds (passTurn stale) parser (parserPass stale fuel parser) := by
  apply LoopEnds.of_bounded (fun parser : Parser capacity => parser.lexer.left) _ _ _ h
  · intro n parser last hturn
    exact (passTurn_leave hturn).2 n
  · intro n parser next hturn
    exact (passTurn_again hturn).2.2 n
  · intro parser next hturn
    obtain ⟨heof, ⟨line, hline⟩, -⟩ := passTurn_again hturn
    have hleft := readLine_ok_left (by rwa [peek_peek]) hline
    exact hleft.trans_le (peek_leads parser.lexer).left

/-- Wherever a pass stops, it comes there by calls of the lexer. -/
theorem ends_calls (h : LoopEnds (passTurn stale) parser next) :
    Calls parser.lexer next.lexer := by
  have hturn : ∀ {parser next : Parser capacity}, passTurn stale parser = .inl next →
      Calls parser.lexer next.lexer := by
    intro parser next h
    obtain ⟨-, ⟨line, hline⟩, -⟩ := passTurn_again h
    exact (peek_calls _).trans ((advance_calls _).trans
      (peek_peek parser.lexer ▸ readLine_ok_calls hline))
  obtain ⟨last, hcomes, hleave⟩ := h.comes
  have hto : Calls parser.lexer last.lexer := by
    apply hcomes.invariant
      (P := fun next : Parser capacity => Calls parser.lexer next.lexer) _ .refl
    exact fun a b ha hab => ha.trans (hturn hab)
  refine hto.trans ?_
  have hread := readLine_calls (lexerPeekToken last.lexer).2
  rcases (passTurn_leave hleave).1 with hlexer | ⟨-, hlexer⟩ | ⟨-, hstop⟩
  · exact hlexer ▸ .refl
  · exact hlexer ▸ peek_calls _
  · rcases hstop with ⟨line, lexer, hok, hlexer⟩ | ⟨-, hlexer⟩
    · rw [hok] at hread
      exact hlexer ▸ (peek_calls _).trans (hread.trans (peek_calls lexer))
    · exact hlexer ▸ (peek_calls _).trans hread

end loops

section assembly

variable {capacity : ℕ}

/-- Both loops of `parser_parse` end, the second one over the text from its start, and this is the
result. -/
def ParseEnds (stale : ℕ → Word → ℕ → Word) (parser : Parser capacity)
    (result : Bool × Parser capacity) : Prop :=
  ∃ first, LoopEnds (passTurn (stale 1)) { parser with pass := 1 } first ∧
    first.lexer.input = parser.lexer.input ∧
    if first.error then result = (false, first)
    else ∃ second, LoopEnds (passTurn (stale 2)) { first with
        pass := 2, currentAddress := 0#32, outputSize := 0,
        lexer := lexerInit first.lexer.input } second ∧
      result = (!second.error, second)

/-- The assembly of a text ends, and stays within it: every call of the lexer up to the place where
the reading ends and every look for a colon run without a fault and give what the model says, every
token taken moves on, every line takes one or ends the pass, and every loop ends. -/
structure Assembles (input : List Byte) : Prop where
  token : ∀ lexer, Scans input lexer →
    Checked.lexerNextToken lexer = .ok (lexerNextToken lexer)
  colon : ∀ lexer, AtLine input lexer → (lexerPeekToken lexer).1.type = .identifier →
    Checked.endsWithColon (lexerPeekToken lexer).2 = .ok (endsWithColon (lexerPeekToken lexer).2)
  within : ∀ lexer, Calls (lexerInit input) lexer → lexer.position ≤ input.length
  forward : ∀ lexer, Calls (lexerInit input) lexer → lexer.hasToken = false →
    (lexerNextToken lexer).1.type ≠ .eof → lexer.position < (lexerNextToken lexer).2.position
  skip : ∀ lexer, Calls (lexerInit input) lexer →
    LoopEnds skipTurn lexer (skipLine (lexer.left + 1) lexer)
  line : ∀ {capacity} (stale : Word → ℕ → Word) (parser : Parser capacity),
    Calls (lexerInit input) parser.lexer →
      Calls (lexerInit input) (parserParseLineWithLabels stale parser).2.lexer ∧
      ((parserParseLineWithLabels stale parser).1 = true →
        Calls (parserAdvance (lexerPeekToken parser.lexer).2)
          (parserParseLineWithLabels stale parser).2.lexer)
  pass : ∀ {capacity} (stale : Word → ℕ → Word) (parser next : Parser capacity),
    parser.lexer = lexerInit input → LoopComes (passTurn stale) parser next →
      AtLine input next.lexer
  stop : ∀ {capacity} (stale : Word → ℕ → Word) (parser last : Parser capacity),
    parser.lexer = lexerInit input → LoopEnds (passTurn stale) parser last →
      Calls last.lexer (readSource input).lexer
  parse : ∀ {capacity} (stale : ℕ → Word → ℕ → Word) (table : SymbolTable)
    (output : CArray Word capacity), ParseEnds stale (parserInit input table output)
      (parserParse stale (parserInit input table output))

variable {input : List Byte} {lexer : Lexer}

theorem Scans.inText (h : Scans input lexer) (h0 : 0#8 ∉ input) : lexer.InText :=
  (inText_init h0).calls h.before

/-- If no call faults, an `int` holds every place on the way. -/
theorem Assembles.held (h : Assembles input) (h0 : 0#8 ∉ input)
    (hcalls : Calls (lexerInit input) lexer) (hbehind : Calls lexer (readSource input).lexer) :
    lexer.Held := by
  have hnext : ∀ {lexer : Lexer}, lexer.Held → Scans input lexer →
      (lexerNextToken lexer).2.Held := by
    intro lexer hheld hscans
    obtain ⟨hblanks, htoken, -⟩ :=
      (Checked.lexerNextToken_ok_iff (hscans.inText h0) hscans.fresh).mp (h.token lexer hscans)
    exact hheld.next hscans.fresh hblanks htoken
  induction hcalls with
  | refl =>
    have hone : 1 < 2 ^ 31 := Nat.one_lt_two_pow (by decide)
    exact ⟨Nat.two_pow_pos 31, hone, hone⟩
  | @peek lexer hcalls ih =>
    have hheld := ih ((peek_calls lexer).trans hbehind)
    cases htoken : lexer.hasToken with
    | true =>
      rw [peek_of_hasToken htoken]
      exact hheld
    | false =>
      have hplace := hnext hheld ⟨htoken, hcalls, .inl hbehind⟩
      rw [peek_of_not_hasToken htoken]
      exact ⟨hplace.position, hplace.line, hplace.column⟩
  | @next lexer hcalls ih =>
    have hheld := ih ((advance_calls lexer).trans hbehind)
    cases htoken : lexer.hasToken with
    | true =>
      have hplace := advance_of_hasToken htoken
      rw [parserAdvance] at hplace
      rw [hplace]
      exact ⟨hheld.position, hheld.line, hheld.column⟩
    | false => exact hnext hheld ⟨htoken, hcalls, .inr hbehind⟩

/-- An `int` can count every text that is short enough, and one further. -/
theorem counted_of_short (h0 : 0#8 ∉ input) (hshort : input.length < 2 ^ 31 - 1) :
    Counted input := by
  have hin : ∀ {lexer}, Calls (lexerInit input) lexer → lexer.InText ∧ lexer.input = input :=
    fun h => ⟨(inText_init h0).calls h, h.leads.input⟩
  constructor
  case read =>
    obtain ⟨⟨hwithin, -, hline, hfirst, hlater⟩, hinput⟩ :=
      hin ((peek_calls _).trans AtLine.start.behind)
    rw [hinput] at hwithin
    constructor <;> omega
  case ahead =>
    intro lexer hline _
    obtain ⟨hlexer, hinput⟩ := hin (hline.before.trans (peek_calls lexer))
    have hrun : lineRun (lexerPeekToken lexer).2.rest <+: (lexerPeekToken lexer).2.rest :=
      List.takeWhile_prefix _
    have hle := hrun.length_le
    have hlength := @List.length_drop _ (lexerPeekToken lexer).2.position
      (lexerPeekToken lexer).2.input
    have hwithin := hlexer.within
    rw [hinput] at hwithin
    rw [← Lexer.rest, hinput] at hlength
    omega
  case digits =>
    intro lexer hscans hdigits
    obtain ⟨hlexer, hinput⟩ := hin hscans.before
    have htext : (lexerSkipWhitespace lexer).input = input := by
      rw [(skipWhitespace_forward lexer).1, hinput]
    have hle := (prefixDigits_le hdigits).1
    have hlength := @List.length_drop _ (lexerSkipWhitespace lexer).position
      (lexerSkipWhitespace lexer).input
    rw [← Lexer.rest, htext] at hlength
    have hint : strlenInt (lexerSkipWhitespace lexer) = input.length := by
      rw [strlenInt, htext, BitVec.toInt_ofNat', Int.bmod_eq_of_le] <;> omega
    rw [hint]
    omega

section number

variable {text : List Byte} {c : Byte}

end number

end assembly

end Dez.Assembler
