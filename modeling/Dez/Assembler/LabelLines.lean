import Dez.Assembler.Lines

/-! Which lines the line parser takes for label definitions. -/
namespace Dez.Assembler
variable {lexer : Lexer} {items : List Item} {text input : List Byte}

/-- The lexers the line parser is called with on an input: the loop of a pass has looked at the
first token of a line, and goes on where the reading of the line ends. -/
inductive LineStart (input : List Byte) : Lexer → Prop
  | first : LineStart input (parserCurrentToken (lexerInit input)).2
  | next {lexer behind : Lexer} {line : Line} (h : LineStart input lexer)
      (hread : readLine lexer = .ok line behind) : LineStart input (parserCurrentToken behind).2

/-- The line is handled as a label definition. -/
def ReadAsLabel (lexer : Lexer) : Prop :=
  ∃ name number behind, readLine lexer = .ok (.label name number) behind

/-- The tokens up to the end of the line are an identifier and a colon. -/
structure LabelTokens (lexer : Lexer) : Prop where
  name : (parserCurrentToken lexer).1.type = .identifier
  colon : (parserCurrentToken (parserAdvance lexer)).1.type = .colon
  last : (parserCurrentToken (parserAdvance (parserAdvance lexer))).1.type = .newline ∨
    (parserCurrentToken (parserAdvance (parserAdvance lexer))).1.type = .eof

/-- Only label lines are labels, and an instruction with a string stays one. -/
structure OnlyLabels (lexer : Lexer) : Prop where
  label : ReadAsLabel lexer ↔ LabelTokens lexer
  instruction : ∀ inst behind value, parserParseInstruction lexer = .ok inst behind →
    Operand.string value ∈ inst.operands → readLine lexer = .ok (.instruction inst) behind

/-- A colon that is last in the raw line, spaces and tabs aside, has only blanks before it, and one
with only blanks around it has no carriage return behind it. -/
structure ColonClear (text : List Byte) : Prop where
  before : ∀ front blanks, rawLine text = front ++ ch ':' :: blanks →
    (∀ c ∈ blanks, c = 0x20#8 ∨ c = 0x09#8) → ∀ c ∈ front, lexerIsWhitespace c = true
  behind : ∀ gap white, rawLine text = gap ++ ch ':' :: white →
    (∀ c ∈ gap, lexerIsWhitespace c = true) → (∀ c ∈ white, lexerIsWhitespace c = true) →
      0x0D#8 ∉ white

section text

theorem skipBlanks_white {c : Byte} (hc : lexerIsWhitespace c = true) :
    skipBlanks (c :: text) = skipBlanks text := by
  unfold skipBlanks
  rw [List.dropWhile_cons_of_pos hc]

/-- Behind a comment the line ends. -/
theorem scanToken_comment (text : List Byte) :
    (scanToken (text.dropWhile fun c => c != 0#8 && c != newline)).type = .newline ∨
      (scanToken (text.dropWhile fun c => c != 0#8 && c != newline)).type = .eof := by
  induction text with
  | nil => exact .inr rfl
  | cons c text ih =>
    by_cases hnul : c = 0#8
    · subst hnul
      exact .inr rfl
    · by_cases hnewline : c = newline
      · subst hnewline
        exact .inl rfl
      · rw [List.dropWhile_cons_of_pos (by simp [hnul, hnewline])]
        exact ih

theorem skipBlanks_semicolon (text : List Byte) : skipBlanks (ch ';' :: text) =
    text.dropWhile fun c => c != 0#8 && c != newline := rfl

/-- A line ends exactly if it has only blanks left. -/
theorem lineEnds_iff : ((scanToken (skipBlanks text)).type = .newline ∨
      (scanToken (skipBlanks text)).type = .eof) ↔
    ∀ c ∈ rawLine text, lexerIsWhitespace c = true := by
  induction text with
  | nil => exact iff_of_true (.inr rfl) nofun
  | cons c text ih =>
    cases hwhite : lexerIsWhitespace c with
    | true =>
      have hline : rawLine (c :: text) = c :: rawLine text :=
        @rawLine_blanks [c] (List.forall_mem_singleton.mpr hwhite) text
      rw [skipBlanks_white hwhite, ih, hline, List.forall_mem_cons, and_iff_right hwhite]
    | false =>
      by_cases hcomment : c = ch ';'
      · subst hcomment
        rw [skipBlanks_semicolon]
        exact iff_of_true (scanToken_comment text) nofun
      rw [skipBlanks_cons hwhite hcomment]
      by_cases hnul : c = 0#8
      · subst hnul
        exact iff_of_true (.inr rfl) nofun
      by_cases hnewline : c = newline
      · subst hnewline
        exact iff_of_true (.inl rfl) nofun
      obtain ⟨heof, hline⟩ := @scanToken_type c text hnul hnewline
      refine iff_of_false (fun h => h.elim hline heof) fun hall => ?_
      have hin : c ∈ rawLine (c :: text) := by
        rw [rawLine, List.takeWhile_cons_of_pos (by simp [hnul, hnewline, hcomment])]
        exact List.mem_cons_self ..
      rw [hall c hin] at hwhite
      cases hwhite

/-- Unless the line ends, only blanks stand before its next token. -/
theorem skipBlanks_gap (h : (scanToken (skipBlanks text)).type ≠ .newline)
    (heof : (scanToken (skipBlanks text)).type ≠ .eof) :
    ∃ gap, text = gap ++ skipBlanks text ∧ ∀ c ∈ gap, lexerIsWhitespace c = true := by
  induction text with
  | nil => exact absurd rfl heof
  | cons c text ih =>
    cases hwhite : lexerIsWhitespace c with
    | true =>
      rw [skipBlanks_white hwhite] at h heof ⊢
      obtain ⟨gap, htext, hgap⟩ := ih h heof
      refine ⟨c :: gap, congrArg (c :: ·) htext, ?_⟩
      exact List.forall_mem_cons.mpr ⟨hwhite, hgap⟩
    | false =>
      by_cases hcomment : c = ch ';'
      · subst hcomment
        rw [skipBlanks_semicolon] at h heof
        rcases scanToken_comment text with hend | hend
        · exact absurd hend h
        · exact absurd hend heof
      · exact ⟨[], by rw [skipBlanks_cons hwhite hcomment]; rfl, nofun⟩

/-- The next token is a colon exactly if the next character but blanks is. -/
theorem nextColon_iff : (scanToken (skipBlanks text)).type = .colon ↔
    ∃ gap behind, text = gap ++ ch ':' :: behind ∧ ∀ c ∈ gap, lexerIsWhitespace c = true := by
  constructor
  · intro h
    obtain ⟨gap, htext, hgap⟩ := skipBlanks_gap (by rw [h]; exact nofun) (by rw [h]; exact nofun)
    generalize skipBlanks text = behind at h htext
    cases behind with
    | nil => cases h
    | cons c behind =>
      obtain rfl := (scanToken_at c behind).colon h
      exact ⟨gap, behind, htext, hgap⟩
  · rintro ⟨gap, behind, rfl, hgap⟩
    rw [skipBlanks_run hgap, skipBlanks_cons rfl (by decide)]
    rfl

/-- The tokens behind a label's name are a colon and the end of the line. -/
theorem labelText_iff (number : ℕ) : ((headLexeme (itemsFrom number text)).type = .colon ∧
      ((headLexeme (itemsFrom number text).tail).type = .newline ∨
        (headLexeme (itemsFrom number text).tail).type = .eof)) ↔
    ∃ gap white, rawLine text = gap ++ ch ':' :: white ∧
      (∀ c ∈ gap, lexerIsWhitespace c = true) ∧ ∀ c ∈ white, lexerIsWhitespace c = true := by
  constructor
  · rintro ⟨hcolon, hlast⟩
    rw [headLexeme_itemsFrom] at hcolon
    obtain ⟨gap, behind, rfl, hgap⟩ := nextColon_iff.mp hcolon
    rw [itemsFrom_colon hgap, List.tail_cons, headLexeme_itemsFrom, lineEnds_iff] at hlast
    refine ⟨gap, rawLine behind, ?_, hgap, hlast⟩
    rw [rawLine_blanks hgap, rawLine_colon]
  · rintro ⟨gap, white, hline, hgap, hwhite⟩
    have hprefix : gap ++ ch ':' :: white <+: text := hline ▸ List.takeWhile_prefix _
    obtain ⟨rest, rfl⟩ := hprefix
    rw [List.append_assoc, List.cons_append] at hline ⊢
    rw [rawLine_blanks hgap, rawLine_colon, rawLine_blanks hwhite,
      List.append_cancel_left_eq] at hline
    rw [itemsFrom_colon hgap, List.tail_cons, headLexeme_itemsFrom, lineEnds_iff,
      rawLine_blanks hwhite, (List.cons.inj hline).2]
    exact ⟨rfl, hwhite⟩

/-- The test for labels and the tokens agree exactly on the lines without such a colon. -/
theorem colonClear_iff : (colonEnds text = true ↔
      ∃ gap white, rawLine text = gap ++ ch ':' :: white ∧
        (∀ c ∈ gap, lexerIsWhitespace c = true) ∧ ∀ c ∈ white, lexerIsWhitespace c = true) ↔
    ColonClear text := by
  have hno : ∀ {run : List Byte}, (∀ c ∈ run, lexerIsWhitespace c = true) → ch ':' ∉ run := by
    intro run hrun hmem
    cases hrun _ hmem
  rw [colonEnds_iff]
  constructor
  · intro hagree
    constructor
    · intro front blanks hline hblanks
      obtain ⟨gap, white, hline', hgap, hwhite⟩ := hagree.mp ⟨front, blanks, hline, hblanks⟩
      rw [hline'] at hline
      obtain ⟨rfl, -, rfl⟩ :=
        (List.append_cons_inj_of_notMem (hno hgap) (hno hwhite)).mp hline
      exact hgap
    · intro gap white hline hgap hwhite hreturn
      obtain ⟨front, blanks, hline', hblanks⟩ := hagree.mpr ⟨gap, white, hline, hgap, hwhite⟩
      rw [hline] at hline'
      obtain ⟨rfl, -, rfl⟩ :=
        (List.append_cons_inj_of_notMem (hno hgap) (hno hwhite)).mp hline'
      rcases hblanks _ hreturn with h | h <;> cases h
  · rintro ⟨hbefore, hbehind⟩
    constructor
    · rintro ⟨front, blanks, hline, hblanks⟩
      refine ⟨front, blanks, hline, hbefore front blanks hline hblanks, fun c hc => ?_⟩
      exact white_of_blank (hblanks c hc)
    · rintro ⟨gap, white, hline, hgap, hwhite⟩
      refine ⟨gap, white, hline, fun c hc => ?_⟩
      have hc' := hwhite c hc
      simp only [lexerIsWhitespace, Bool.or_eq_true, decide_eq_true_eq] at hc'
      rcases hc' with hblank | rfl
      · exact hblank
      · exact absurd hc (hbehind gap white hline hgap hwhite)

end text

section parser

variable {capacity : ℕ} {stale : Word → ℕ → Word} {parser : Parser capacity}

theorem Matches.of_ok {α : Type} {value : α} {behind : Lexer} {parse : Parse α}
    (h : Matches (.ok value behind) parse) :
    ∃ rest, parse = .ok value rest ∧ Reads behind rest := by
  cases h with
  | ok hrest => exact ⟨_, rfl, hrest⟩

theorem LineStart.reads (h : LineStart input lexer) :
    lexer.hasToken = true ∧ ∃ items, Reads lexer items := by
  induction h with
  | first => exact ⟨hasToken_peek _, textItems input, (reads_init input).peek⟩
  | next _ hread ih =>
    obtain ⟨-, items, hitems⟩ := ih
    have hmatch := line_matches hitems
    rw [hread] at hmatch
    obtain ⟨rest, -, hrest⟩ := hmatch.of_ok
    exact ⟨hasToken_peek _, rest, hrest.peek⟩

/-- The tokens from an identifier on. -/
theorem LineStart.reads_identifier (h : LineStart input lexer)
    (hi : lexer.currentToken.type = .identifier) :
    Reads lexer (lexer.item :: itemsFrom lexer.line lexer.rest) := by
  obtain ⟨htoken, items, hitems⟩ := h.reads
  cases hitems with
  | fresh hnone =>
    rw [htoken] at hnone
    cases hnone
  | ended _ hitem _ =>
    have heof : lexer.currentToken.type = .eof := congrArg Lexeme.type hitem
    rw [hi] at heof
    cases heof
  | buffered _ heof hcolon => exact .buffered htoken heof hcolon

theorem readAsLabel_iff (h : Reads lexer items) (hi : (headLexeme items).type = .identifier) :
    ReadAsLabel lexer ↔ headColon items = true := by
  have hmatch := line_matches h
  constructor
  · rintro ⟨name, number, behind, hread⟩
    rw [hread] at hmatch
    obtain ⟨rest, hline, -⟩ := hmatch.of_ok
    exact (isLabel_iff hi hline).symm
  · intro hcolon
    obtain ⟨line, rest, hline⟩ := lineOf_label hi hcolon
    have hlabel := (isLabel_iff hi hline).trans hcolon
    rw [hline] at hmatch
    generalize hread : readLine lexer = outcome at hmatch
    cases hmatch
    cases line with
    | label name number => exact ⟨name, number, _, hread⟩
    | blank | constant name value number | instruction inst => cases hlabel

/-- An instruction that is no label is read as itself. -/
theorem readLine_instruction {inst : ParsedInstruction} {behind : Lexer}
    (htoken : lexer.hasToken = true) (hi : lexer.currentToken.type = .identifier)
    (hreads : Reads lexer (lexer.item :: items)) (hlabel : ¬ ReadAsLabel lexer)
    (h : parserParseInstruction lexer = .ok inst behind) :
    readLine lexer = .ok (.instruction inst) behind := by
  have hpeek := peek_of_hasToken htoken
  have hends : ¬ endsWithColon lexer = true := by
    intro hends
    have hcolon := hreads.endsWithColon hi
    rw [hpeek] at hcolon
    exact hlabel ((readAsLabel_iff hreads hi).mpr (hcolon.symm.trans hends))
  have hequ : lexer.currentToken.value.chars ≠ bytes "EQU" := by
    intro hname
    unfold parserParseInstruction parserCurrentToken at h
    simp only [hpeek, hi, not_true_eq_false, if_false, ne_eq, hname] at h
    cases h
  rw [readLine_eq, hpeek]
  simp only [hi, reduceCtorEq, if_false, true_and, hends, hequ, h]
  rfl

theorem labelTokens_iff (h : LineStart input lexer) (hi : lexer.currentToken.type = .identifier) :
    LabelTokens lexer ↔ ∃ gap white, rawLine lexer.rest = gap ++ ch ':' :: white ∧
      (∀ c ∈ gap, lexerIsWhitespace c = true) ∧ ∀ c ∈ white, lexerIsWhitespace c = true := by
  have hname := h.reads_identifier hi
  have hcolon := hname.advance
  have hlast := hcolon.advance
  rw [List.tail_cons] at hcolon hlast
  rw [← labelText_iff lexer.line, ← hcolon.type, ← hlast.type]
  constructor
  · rintro ⟨-, hc, hl⟩
    exact ⟨hc, hl⟩
  · rintro ⟨hc, hl⟩
    exact ⟨hname.type.trans hi, hc, hl⟩

/-- An instruction with an operand is no label by its tokens. -/
theorem not_labelTokens {inst : ParsedInstruction} {behind : Lexer} {operand : Operand}
    (hreads : Reads lexer (lexer.item :: items))
    (h : parserParseInstruction lexer = .ok inst behind) (hmem : operand ∈ inst.operands) :
    ¬ LabelTokens lexer := by
  rintro ⟨-, hcolon, -⟩
  have hmatch := instruction_matches hreads
  rw [h] at hmatch
  obtain ⟨rest, hinst, -⟩ := hmatch.of_ok
  have htype : (headLexeme items).type = .colon := hreads.advance.type.symm.trans hcolon
  obtain ⟨colon, items, rfl⟩ := @headLexeme_ne_nil items (by rw [htype]; exact nofun)
  rw [(instructionOf_colon htype hinst).1] at hmem
  cases hmem

/-- A line that starts with an identifier is handled as its tokens say exactly if a colon at the end
of its raw text stands right behind the identifier, blanks aside, and a colon that stands alone
there has no carriage return behind it. -/
theorem only_labels_iff (h : LineStart input lexer) (hi : lexer.currentToken.type = .identifier) :
    OnlyLabels lexer ↔ ColonClear lexer.rest := by
  have hreads := h.reads_identifier hi
  have hlabel : ReadAsLabel lexer ↔ colonEnds lexer.rest = true := readAsLabel_iff hreads hi
  rw [← colonClear_iff, ← hlabel, ← labelTokens_iff h hi]
  constructor
  · exact OnlyLabels.label
  · intro hagree
    refine ⟨hagree, fun inst behind value hinst hmem => ?_⟩
    have hno : ¬ ReadAsLabel lexer := fun hl => not_labelTokens hreads hinst hmem (hagree.mp hl)
    exact readLine_instruction h.reads.1 hi hreads hno hinst

/-- A string with a colon and a semicolon. -/
def colonString : List Byte := bytes "MOV R0, \"a:;b\""

theorem only_labels_iff_colonString :
    OnlyLabels (parserCurrentToken (lexerInit colonString)).2 ↔
      ColonClear (parserCurrentToken (lexerInit colonString)).2.rest :=
  @only_labels_iff _ colonString .first (by decide)

/-- The instruction is dropped as a definition of its mnemonic. -/
theorem string_dropped :
    ¬ ∀ input lexer, LineStart input lexer → lexer.currentToken.type = .identifier →
      OnlyLabels lexer := by
  intro h
  obtain ⟨behind, hlabel⟩ : ∃ behind, readLine (parserCurrentToken (lexerInit colonString)).2 =
      .ok (.label (.ofBytes 255 (bytes "MOV")) 1) behind := ⟨_, rfl⟩
  have hread := (h colonString _ .first (by decide)).instruction
    ⟨.mov, [.register 0, .string (.ofBytes 255 (bytes "a:;b"))]⟩ _ (.ofBytes 255 (bytes "a:;b")) rfl
    (by decide)
  rw [hlabel] at hread
  cases hread

end parser

end Dez.Assembler
