import Dez.Assembler.Grammar

/-! What the layout of a text, its blanks and comments, can change of the result. -/
namespace Dez.Assembler
variable {capacity : ℕ} {stale : Word → ℕ → Word} {parser other : Parser capacity} {line : Line}

/-- Two parsers that differ in their lexers and in what they have printed only. -/
structure Parser.Agrees (parser other : Parser capacity) : Prop where
  symbolTable : parser.symbolTable = other.symbolTable
  output : parser.output = other.output
  outputSize : parser.outputSize = other.outputSize
  currentAddress : parser.currentAddress = other.currentAddress
  pass : parser.pass = other.pass
  error : parser.error = other.error

theorem Parser.Agrees.refl (parser : Parser capacity) : parser.Agrees parser :=
  ⟨rfl, rfl, rfl, rfl, rfl, rfl⟩

theorem Parser.Agrees.trans {last : Parser capacity} (h : parser.Agrees other)
    (h' : other.Agrees last) : parser.Agrees last :=
  ⟨h.symbolTable.trans h'.symbolTable, h.output.trans h'.output, h.outputSize.trans h'.outputSize,
    h.currentAddress.trans h'.currentAddress, h.pass.trans h'.pass, h.error.trans h'.error⟩

theorem Parser.Agrees.symm (h : parser.Agrees other) : other.Agrees parser :=
  ⟨h.symbolTable.symm, h.output.symm, h.outputSize.symm, h.currentAddress.symm, h.pass.symm,
    h.error.symm⟩

/-- What a line does to a parser does not depend on the lexer. -/
theorem perform_agrees (stale : Word → ℕ → Word) (line : Line) (h : parser.Agrees other) :
    (parser.perform stale line).1 = (other.perform stale line).1 ∧
      (parser.perform stale line).2.Agrees (other.perform stale line).2 := by
  obtain ⟨lexer, table, output, size, address, pass, error, printed⟩ := parser
  obtain ⟨lexer', table', output', size', address', pass', error', printed'⟩ := other
  obtain ⟨rfl, rfl, rfl, rfl, rfl, rfl⟩ := h
  cases line with
  | blank => exact ⟨rfl, rfl, rfl, rfl, rfl, rfl, rfl⟩
  | label name number | constant name value number =>
    unfold Parser.perform
    dsimp only
    split <;> exact ⟨rfl, rfl, rfl, rfl, rfl, rfl, rfl⟩
  | instruction inst =>
    unfold Parser.perform Parser.emit
    dsimp only [Parser.print]
    by_cases hp : pass = 2
    · rw [if_pos hp, if_pos hp]
      by_cases hroom : size < capacity
      · rw [dif_pos hroom, dif_pos hroom]
        exact ⟨rfl, rfl, rfl, rfl, rfl, rfl, rfl⟩
      · rw [dif_neg hroom, dif_neg hroom]
        exact ⟨rfl, rfl, rfl, rfl, rfl, rfl, rfl⟩
    · rw [if_neg hp, if_neg hp]
      exact ⟨rfl, rfl, rfl, rfl, rfl, rfl, rfl⟩

/-- A line that goes on to the next meets no error, and leaves the lexer alone. -/
theorem perform_goes_on (line : Line) (h : (parser.perform stale line).1 = true) :
    (parser.perform stale line).2.error = parser.error ∧
      (parser.perform stale line).2.lexer = parser.lexer := by
  cases line with
  | blank => exact ⟨rfl, rfl⟩
  | label name number | constant name value number =>
    unfold Parser.perform
    dsimp only
    split <;> exact ⟨rfl, rfl⟩
  | instruction inst =>
    unfold Parser.perform Parser.emit at h ⊢
    dsimp only [Parser.print] at h ⊢
    by_cases hp : parser.pass = 2
    · rw [if_pos hp] at h ⊢
      by_cases hroom : parser.outputSize < capacity
      · rw [dif_pos hroom]
        exact ⟨rfl, rfl⟩
      · rw [dif_neg hroom] at h
        cases h
    · rw [if_neg hp]
      exact ⟨rfl, rfl⟩

/-- The lines of a reading done one after the other, and what the reading ends with. -/
def performLines (stale : Word → ℕ → Word) (ending : Ending) (parser : Parser capacity) :
    List Line → Parser capacity
  | [] => if ending = .failed then { parser with error := true } else parser
  | line :: lines =>
    let (done, parser) := parser.perform stale line
    if done then performLines stale ending parser lines else parser

theorem performLines_agrees (ending : Ending) (lines : List Line) (h : parser.Agrees other) :
    (performLines stale ending parser lines).Agrees (performLines stale ending other lines) := by
  induction lines generalizing parser other with
  | nil =>
    unfold performLines
    split
    · exact ⟨h.symbolTable, h.output, h.outputSize, h.currentAddress, h.pass, rfl⟩
    · exact h
  | cons line lines ih =>
    obtain ⟨hdone, hline⟩ := perform_agrees stale line h
    unfold performLines
    dsimp only
    rw [hdone]
    split
    · exact ih hline
    · exact hline

/-- A pass reads the lines and performs them. -/
theorem parserPass_performs (stale : Word → ℕ → Word) (fuel : ℕ) (he : parser.error = false) :
    (parserPass stale fuel parser).Agrees
      (performLines stale (readLines fuel parser.lexer).ending parser
        (readLines fuel parser.lexer).lines) := by
  induction fuel generalizing parser with
  | zero => exact Parser.Agrees.refl parser
  | succ fuel ih =>
    by_cases heof : (lexerPeekToken parser.lexer).1.type = .eof
    · rw [parserPass_eof he heof, readLines_eof heof]
      exact ⟨rfl, rfl, rfl, rfl, rfl, rfl⟩
    · rw [parserPass_line he heof]
      dsimp only
      rcases readLine_cases heof with ⟨line, next, hl, -⟩ | hs | ⟨message, next, hl⟩
      · rw [readLines_ok heof hl, parseLine_ok hl, performLines]
        have hstart : ({ parser with lexer := next } : Parser capacity).Agrees parser :=
          ⟨rfl, rfl, rfl, rfl, rfl, rfl⟩
        obtain ⟨hdone, hline⟩ := perform_agrees stale line hstart
        dsimp only
        rw [← hdone]
        split
        · rename_i hgoes
          obtain ⟨herror, hlexer⟩ := perform_goes_on line hgoes
          have hrest := ih (herror.trans he)
          rw [hlexer] at hrest
          exact hrest.trans (performLines_agrees _ _ hline)
        · exact hline
      · rw [readLines_stuck heof hs]
        have hl : readLine (lexerPeekToken parser.lexer).2 =
            .stuck (lexerPeekToken parser.lexer).2 := by
          have hstuck := readLine_stuck_iff.mpr ⟨by rwa [peek_peek], rfl⟩
          rwa [peek_peek] at hstuck
        rw [parseLine_stuck hl]
        exact ⟨rfl, rfl, rfl, rfl, rfl, rfl⟩
      · rw [readLines_fail heof hl, parseLine_fail hl]
        exact ⟨rfl, rfl, rfl, rfl, rfl, rfl⟩

section readings

variable {input input' : List Byte} (stale : ℕ → Word → ℕ → Word) (table : SymbolTable)
  (output : CArray Word capacity)

/-- A pass over texts with the same lines. -/
theorem runPass_agrees (hlines : (readSource input).lines = (readSource input').lines)
    (hending : (readSource input).ending = (readSource input').ending) (h : parser.Agrees other)
    (he : parser.error = false) (hp : parser.lexer = lexerInit input)
    (hq : other.lexer = lexerInit input') :
    (runPass stale parser).Agrees (runPass stale other) := by
  have hperform := parserPass_performs (stale parser.pass)
    ((lexerInit input).left + 1) he
  have hperform' := parserPass_performs (stale other.pass)
    ((lexerInit input').left + 1) (h.error.symm.trans he)
  rw [hp, readSource_eq] at hperform
  rw [hq, readSource_eq, ← hlines, ← hending, ← h.pass] at hperform'
  have hlines := hperform.trans (performLines_agrees _ _ h)
  have hboth := hlines.trans hperform'.symm
  unfold runPass
  rw [hp, hq, ← h.pass]
  exact hboth

theorem secondPass_agrees (hlines : (readSource input).lines = (readSource input').lines)
    (hending : (readSource input).ending = (readSource input').ending) (h : parser.Agrees other)
    (he : parser.error = false) (hp : parser.lexer.input = input)
    (hq : other.lexer.input = input') :
    (secondPass stale parser).Agrees (secondPass stale other) := by
  have hstart : ({ parser with
      pass := 2, currentAddress := 0#32, outputSize := 0,
      lexer := lexerInit parser.lexer.input } : Parser capacity).Agrees { other with
      pass := 2, currentAddress := 0#32, outputSize := 0, lexer := lexerInit other.lexer.input } :=
    ⟨h.symbolTable, h.output, rfl, rfl, rfl, h.error⟩
  unfold secondPass
  exact runPass_agrees stale hlines hending hstart he (congrArg lexerInit hp)
    (congrArg lexerInit hq)

/-- The result of `parser_parse` depends on the lines that are read and on how the reading ends. -/
theorem parserParse_agrees (hlines : (readSource input).lines = (readSource input').lines)
    (hending : (readSource input).ending = (readSource input').ending) :
    (parserParse stale (parserInit input table output)).1 =
        (parserParse stale (parserInit input' table output)).1 ∧
      (parserParse stale (parserInit input table output)).2.Agrees
        (parserParse stale (parserInit input' table output)).2 := by
  have hfirst : (firstPass stale (parserInit input table output)).Agrees
      (firstPass stale (parserInit input' table output)) := by
    unfold firstPass
    exact runPass_agrees stale hlines hending ⟨rfl, rfl, rfl, rfl, rfl, rfl⟩ rfl rfl rfl
  have hfailed := @firstPass_error _ stale input table output
  have hlexer := @firstPass_lexer _ stale input table output
  have hlexer' := @firstPass_lexer _ stale input' table output
  unfold parserParse
  generalize firstPass stale (parserInit input table output) = first at *
  generalize firstPass stale (parserInit input' table output) = first' at *
  dsimp only
  rw [← hfirst.error]
  cases he : first.error with
  | true => exact ⟨rfl, hfirst⟩
  | false =>
    have hread : (readSource input).ending ≠ .failed := by
      intro hf
      rw [hfailed.mpr hf] at he
      cases he
    have hsecond := secondPass_agrees stale hlines hending hfirst he
      (by rw [hlexer, readSource_input hread])
      (by rw [hlexer', readSource_input (hending ▸ hread)])
    rw [if_neg Bool.false_ne_true, if_neg Bool.false_ne_true, hsecond.error]
    exact ⟨rfl, hsecond⟩

end readings

section plain

variable {items items' : List Item} {α β : Type}

/-- A token without the test for labels. -/
def Item.plain (item : Item) : Item := { item with colon := false }

def Parse.plain : Parse α → Parse α
  | .ok value rest => .ok value (rest.map Item.plain)
  | .stuck => .stuck
  | .fail => .fail

@[simp] theorem headLexeme_plain (items : List Item) :
    headLexeme (items.map Item.plain) = headLexeme items := by
  cases items <;> rfl

@[simp] theorem headLine_plain (items : List Item) :
    headLine (items.map Item.plain) = headLine items := by
  cases items <;> rfl

theorem bind_plain (parse : Parse α) {f : α → List Item → Parse β}
    (h : ∀ a items, f a (items.map Item.plain) = (f a items).plain) :
    parse.plain.bind f = (parse.bind f).plain := by
  cases parse with
  | ok a rest => exact h a rest
  | stuck => rfl
  | fail => rfl

theorem memoryOperandOf_plain (items : List Item) :
    memoryOperandOf (items.map Item.plain) = (memoryOperandOf items).plain := by
  unfold memoryOperandOf
  simp only [← List.map_tail, headLexeme_plain]
  split
  · rfl
  · split <;> rfl

theorem operandOf_plain (items : List Item) :
    operandOf (items.map Item.plain) = (operandOf items).plain := by
  unfold operandOf
  simp only [← List.map_tail, headLexeme_plain, memoryOperandOf_plain]
  split
  · rfl
  · rfl
  · rfl
  · split <;> rfl
  · rfl
  · rfl
  · rfl

theorem operandsOf_plain (i n : ℕ) (items : List Item) :
    operandsOf i n (items.map Item.plain) = (operandsOf i n items).plain := by
  induction n generalizing i items with
  | zero => rfl
  | succ n ih =>
    have hstart : (if 0 < i then (items.map Item.plain).tail else items.map Item.plain) =
        (if 0 < i then items.tail else items).map Item.plain := by
      split
      · exact List.map_tail.symm
      · rfl
    unfold operandsOf
    rw [headLexeme_plain, hstart, operandOf_plain]
    split
    · rfl
    · refine bind_plain _ fun operand rest => ?_
      rw [ih]
      exact bind_plain _ fun operands rest => rfl

theorem instructionOf_plain (items : List Item) :
    instructionOf (items.map Item.plain) = (instructionOf items).plain := by
  unfold instructionOf
  simp only [← List.map_tail, headLexeme_plain, operandsOf_plain]
  split
  · rfl
  · split
    · rfl
    · exact bind_plain _ fun operands rest => rfl

theorem constantOf_plain (items : List Item) :
    constantOf (items.map Item.plain) = (constantOf items).plain := by
  unfold constantOf
  by_cases hfound : (headLexeme items.tail).type = .identifier
  · simp only [← List.map_tail, headLexeme_plain, headLine_plain, hfound, if_true,
      not_true_eq_false, false_or]
    split
    · rfl
    · split <;> rfl
  · simp only [← List.map_tail, headLexeme_plain, hfound, not_false_eq_true, true_or, if_true]
    rfl

/-- Two lists of tokens that differ in the tests for labels, but not in the first, start with the
same line. -/
theorem lineOf_plain (h : items.map Item.plain = items'.map Item.plain)
    (htest : (headLexeme items).type = .identifier → headColon items = headColon items') :
    (lineOf items).plain = (lineOf items').plain := by
  have hlexeme : headLexeme items = headLexeme items' := by
    rw [← headLexeme_plain, h, headLexeme_plain]
  have hline : headLine items = headLine items' := by
    rw [← headLine_plain, h, headLine_plain]
  have htail : items.tail.map Item.plain = items'.tail.map Item.plain := by
    rw [List.map_tail, h, ← List.map_tail]
  have hskip : ∀ items : List Item,
      (items.dropWhile fun item => item.lexeme.type ≠ .newline).map Item.plain =
        (items.map Item.plain).dropWhile fun item => item.lexeme.type ≠ .newline := by
    intro items
    rw [List.dropWhile_map]
    rfl
  have hconstant : (constantOf items).plain = (constantOf items').plain := by
    rw [← constantOf_plain, h, constantOf_plain]
  have hinstruction : ((instructionOf items).bind fun inst items =>
      Parse.ok (Line.instruction inst) items).plain =
        ((instructionOf items').bind fun inst items =>
          Parse.ok (Line.instruction inst) items).plain := by
    rw [← bind_plain _ fun inst rest => rfl, ← bind_plain _ fun inst rest => rfl,
      ← instructionOf_plain, h, instructionOf_plain]
  unfold lineOf
  simp only [hlexeme, hline] at htest ⊢
  by_cases hn : (headLexeme items').type = .newline
  · rw [if_pos hn, if_pos hn]
    exact congrArg (Parse.ok Line.blank) htail
  rw [if_neg hn, if_neg hn]
  by_cases hc : (headLexeme items').type = .comment
  · rw [if_pos hc, if_pos hc]
    exact congrArg (Parse.ok Line.blank) htail
  rw [if_neg hc, if_neg hc]
  by_cases hi : (headLexeme items').type = .identifier
  · rw [htest hi]
    split
    · refine congrArg (Parse.ok _) ?_
      rw [hskip, h, ← hskip]
    · split
      · exact hconstant
      · exact hinstruction
  · simp only [hi, false_and, if_false]
    exact hinstruction

/-- The places two readings come to together, line by line. -/
inductive Together : List Item → List Item → List Item → List Item → Prop
  | start (a b : List Item) : Together a b a b
  | next {a b a' b' c d : List Item} {line line' : Line} (h : lineOf a = .ok line a')
      (h' : lineOf b = .ok line' b') (hrest : Together a' b' c d) : Together a b c d

/-- Wherever both readings come to an identifier at the start of a line, it is tested alike. -/
def SameTests (items items' : List Item) : Prop :=
  ∀ a b, Together items items' a b → (headLexeme a).type = .identifier →
    headColon a = headColon b

/-- Then they read the same lines. -/
theorem linesOf_plain (fuel : ℕ) (h : items.map Item.plain = items'.map Item.plain)
    (htests : SameTests items items') : linesOf fuel items = linesOf fuel items' := by
  induction fuel generalizing items items' with
  | zero => rfl
  | succ fuel ih =>
    have hlexeme : headLexeme items = headLexeme items' := by
      rw [← headLexeme_plain, h, headLexeme_plain]
    have hline := lineOf_plain h (htests _ _ (.start _ _))
    unfold linesOf
    rw [hlexeme]
    split
    · rfl
    · cases hl : lineOf items with
      | ok line rest =>
        cases hl' : lineOf items' with
        | ok line' rest' =>
          rw [hl, hl'] at hline
          obtain ⟨rfl, hrest⟩ := Parse.ok.inj hline
          have hsame := ih hrest fun a b hab => htests a b (.next hl hl' hab)
          simp only [hsame]
        | stuck => rw [hl, hl'] at hline; cases hline
        | fail => rw [hl, hl'] at hline; cases hline
      | stuck =>
        cases hl' : lineOf items' with
        | stuck => rfl
        | ok line rest => rw [hl, hl'] at hline; cases hline
        | fail => rw [hl, hl'] at hline; cases hline
      | fail =>
        cases hl' : lineOf items' with
        | fail => rfl
        | ok line rest => rw [hl, hl'] at hline; cases hline
        | stuck => rw [hl, hl'] at hline; cases hline

def Line.isLabel : Line → Bool
  | .label _ _ => true
  | _ => false

def Line.isConstant : Line → Bool
  | .constant _ _ _ => true
  | _ => false

/-- A line of an identifier is a label exactly if it is tested so. -/
theorem isLabel_iff {line : Line} {rest : List Item} (hi : (headLexeme items).type = .identifier)
    (h : lineOf items = .ok line rest) : line.isLabel = headColon items := by
  cases lineOf_ok h with
  | blank hblank =>
    rcases hblank with ht | ht
    · cases hi.symm.trans ht
    · cases hi.symm.trans ht
  | label _ hcolon => exact hcolon.symm
  | constant _ hcolon _ hread =>
    obtain ⟨⟨value, rfl⟩, -⟩ := constantOf_ok hread
    exact hcolon.symm
  | instruction _ hcolon => exact hcolon.symm

theorem lineOf_label (hi : (headLexeme items).type = .identifier) (hc : headColon items = true) :
    ∃ line rest, lineOf items = .ok line rest := by
  unfold lineOf
  simp only [hi, hc, reduceCtorEq, if_false, true_and, if_true]
  exact ⟨_, _, rfl⟩

theorem linesOf_ok {line : Line} {rest : List Item} {fuel : ℕ}
    (heof : (headLexeme items).type ≠ .eof) (h : lineOf items = .ok line rest) :
    linesOf (fuel + 1) items = (line :: (linesOf fuel rest).1, (linesOf fuel rest).2) := by
  simp only [linesOf, h, heof, if_false]

/-- An identifier tested differently makes the readings differ. -/
theorem linesOf_ne {c d : List Item} {n : ℕ} (hc : (headLexeme c).type = .identifier)
    (hd : (headLexeme d).type = .identifier) (htest : headColon c = true)
    (htest' : headColon d = false) : linesOf (n + 1) c ≠ linesOf (n + 1) d := by
  intro hsame
  obtain ⟨line, rest, hl⟩ := lineOf_label hc htest
  rw [linesOf_ok (by rw [hc]; exact nofun) hl] at hsame
  have hlabel := (isLabel_iff hc hl).trans htest
  cases hl' : lineOf d with
  | ok line' rest' =>
    rw [linesOf_ok (by rw [hd]; exact nofun) hl'] at hsame
    obtain ⟨rfl, -⟩ := List.cons.inj (congrArg Prod.fst hsame)
    rw [(isLabel_iff hd hl').trans htest'] at hlabel
    cases hlabel
  | stuck => simp [linesOf, hl', hd] at hsame
  | fail => simp [linesOf, hl', hd] at hsame

theorem test_of_linesOf {n : ℕ} (h : items.map Item.plain = items'.map Item.plain)
    (hsame : linesOf (n + 1) items = linesOf (n + 1) items')
    (hi : (headLexeme items).type = .identifier) : headColon items = headColon items' := by
  have hi' : (headLexeme items').type = .identifier := by
    rw [← headLexeme_plain, ← h, headLexeme_plain]
    exact hi
  by_contra hne
  cases hc : headColon items with
  | true =>
    have hc' := Bool.eq_false_iff.mpr fun hd => hne (hc.trans hd.symm)
    exact linesOf_ne hi hi' hc hc' hsame
  | false =>
    have hc' := Bool.eq_true_of_not_eq_false fun hd => hne (hc.trans hd.symm)
    exact linesOf_ne hi' hi hc' hc hsame.symm

theorem lineOf_ne_eof {line : Line} {rest : List Item} (h : lineOf items = .ok line rest) :
    (headLexeme items).type ≠ .eof := by
  intro heof
  simp only [lineOf, instructionOf, heof, reduceCtorEq, if_false, false_and, ne_eq,
    not_false_eq_true, if_true] at h
  cases h

/-- Readings that stay the same with any more fuel have the same tests. -/
theorem sameTests_of_linesOf {n : ℕ} (h : items.map Item.plain = items'.map Item.plain)
    (hsame : ∀ k, linesOf (n + k) items = linesOf (n + k) items') : SameTests items items' := by
  intro c d htogether
  induction htogether with
  | start a b => exact test_of_linesOf h (hsame 1)
  | next hl hl' hrest ih =>
    have hline := lineOf_plain h (test_of_linesOf h (hsame 1))
    rw [hl, hl'] at hline
    obtain ⟨rfl, hplain⟩ := Parse.ok.inj hline
    refine ih hplain fun k => ?_
    have hnext := hsame (k + 1)
    rw [← Nat.add_assoc, linesOf_ok (lineOf_ne_eof hl) hl, linesOf_ok (lineOf_ne_eof hl') hl']
      at hnext
    obtain ⟨hlines, hending⟩ := Prod.mk.inj hnext
    exact Prod.ext (List.cons.inj hlines).2 hending

end plain

/-- The types, texts and numbers of the tokens of a text. -/
def tokens (text : List Byte) : List Lexeme := (textItems text).map Item.lexeme

/-- The lines of tokens. -/
def numberLines : ℕ → List Lexeme → List Item
  | _, [] => []
  | line, lexeme :: lexemes => ⟨lexeme, line, false⟩ ::
    numberLines (if lexeme.type = .newline then line + 1 else line) lexemes

/-- The tokens say what lines they are in. -/
theorem itemsFrom_plain (line : ℕ) (text : List Byte) :
    (itemsFrom line text).map Item.plain =
      numberLines line ((itemsFrom line text).map Item.lexeme) := by
  induction h : text.length using Nat.strong_induction_on generalizing line text with
  | _ n ih =>
    rw [itemsFrom_eq]
    dsimp only
    split
    · rfl
    · rename_i heof
      rw [List.map_cons, List.map_cons, numberLines, ih _ (h ▸ length_behind heof) _ _ rfl]
      rfl

theorem textItems_plain {input input' : List Byte} (h : tokens input = tokens input') :
    (textItems input).map Item.plain = (textItems input').map Item.plain := by
  unfold tokens textItems at *
  rw [itemsFrom_plain, itemsFrom_plain, h]

/-- Fuel beyond the text changes nothing. -/
theorem readLines_fuel {fuel : ℕ} {lexer : Lexer} (h : lexer.left < fuel) (k : ℕ) :
    readLines (fuel + k) lexer = readLines fuel lexer := by
  induction fuel generalizing lexer with
  | zero => omega
  | succ fuel ih =>
    rw [Nat.add_right_comm]
    by_cases heof : (lexerPeekToken lexer).1.type = .eof
    · rw [readLines_eof heof, readLines_eof heof]
    · rcases readLine_cases heof with ⟨line, next, hl, hlt, -⟩ | hs | ⟨message, next, hl⟩
      · rw [readLines_ok heof hl, readLines_ok heof hl, ih (by omega)]
      · rw [readLines_stuck heof hs, readLines_stuck heof hs]
      · rw [readLines_fail heof hl, readLines_fail heof hl]

theorem readSource_fuel (input : List Byte) (k : ℕ) :
    (readSource input).lines = (linesOf (input.length + 1 + k) (textItems input)).1 ∧
      (readSource input).ending = (linesOf (input.length + 1 + k) (textItems input)).2 := by
  have hleft : (lexerInit input).left = input.length := left_of_not_hasToken rfl
  rw [← readSource_eq, ← readLines_fuel (Nat.lt_succ_self _) k, hleft]
  exact lines_match _ (reads_init input)

/-- Of texts with the same tokens the parser reads the same lines exactly if its tests for labels
are answered alike. -/
theorem readings_eq_iff {input input' : List Byte} (htokens : tokens input = tokens input') :
    ((readSource input).lines = (readSource input').lines ∧
      (readSource input).ending = (readSource input').ending) ↔
      SameTests (textItems input) (textItems input') := by
  have hfuel : ∀ k, input'.length + 1 + (input.length + k) =
      input.length + 1 + (input'.length + k) := fun k => by omega
  constructor
  · rintro ⟨hlines, hending⟩
    apply sameTests_of_linesOf (textItems_plain htokens) (n := input.length + 1 + input'.length)
    intro k
    have hread := readSource_fuel input (input'.length + k)
    have hread' := readSource_fuel input' (input.length + k)
    rw [hfuel] at hread'
    rw [Nat.add_assoc]
    exact Prod.ext (hread.1.symm.trans (hlines.trans hread'.1))
      (hread.2.symm.trans (hending.trans hread'.2))
  · intro htests
    have hread := readSource_fuel input (input'.length + 0)
    have hread' := readSource_fuel input' (input.length + 0)
    rw [hfuel, ← linesOf_plain _ (textItems_plain htokens) htests] at hread'
    exact ⟨hread.1.trans hread'.1.symm, hread.2.trans hread'.2.symm⟩

/-- Texts with the same tokens give the same result, the same number of words and the same words,
if wherever the parser comes to an identifier at the start of a line, its look at the raw text finds
a colon at the line's end in both or in neither. -/
theorem tokens_decide (stale : ℕ → Word → ℕ → Word) (input input' : List Byte) (table : SymbolTable)
    (output : CArray Word capacity) (htokens : tokens input = tokens input')
    (htests : SameTests (textItems input) (textItems input')) :
    let result := parserParse stale (parserInit input table output)
    let result' := parserParse stale (parserInit input' table output)
    result.1 = result'.1 ∧ result.2.outputSize = result'.2.outputSize ∧
      result.2.output = result'.2.output := by
  obtain ⟨hlines, hending⟩ := (readings_eq_iff htokens).mpr htests
  obtain ⟨hsuccess, hagrees⟩ := parserParse_agrees stale table output hlines hending
  exact ⟨hsuccess, hagrees.outputSize, hagrees.output⟩

/-- Two readings of the same tokens stay together. -/
theorem Together.eq {a b c d : List Item} (h : Together a b c d) (hab : a = b) : c = d := by
  induction h with
  | start a b => exact hab
  | next h h' hrest ih =>
    subst hab
    rw [h] at h'
    exact ih (Parse.ok.inj h').2

theorem sameTests_of_eq {items items' : List Item} (h : items = items') :
    SameTests items items' := fun _ _ hab _ => congrArg headColon (hab.eq h)

/-- Blanks and a comment around a label. -/
theorem tokens_decide_blanks :
    let result := parserParse (fun _ _ _ => 0) (parserInit (bytes "A: ; start\n\tJMP  A")
      symbolTableInit fun _ : Fin 1 => 0)
    let result' := parserParse (fun _ _ _ => 0) (parserInit (bytes "  A:\nJMP A\t") symbolTableInit
      fun _ : Fin 1 => 0)
    result.1 = result'.1 ∧ result.2.outputSize = result'.2.outputSize ∧
      result.2.output = result'.2.output :=
  tokens_decide (fun _ _ _ => 0) _ _ symbolTableInit _ (by decide +kernel)
    (sameTests_of_eq (by decide +kernel))

/-- A carriage return behind a label's colon hides the label from the line parser. -/
theorem carriage_return_decides :
    ¬ ∀ capacity stale input input' table (output : CArray Word capacity),
      tokens input = tokens input' →
        (parserParse stale (parserInit input table output)).1 =
          (parserParse stale (parserInit input' table output)).1 := by
  intro h
  have hsame := h 1 (fun _ _ _ => 0) (bytes "A:\nHALT") (bytes "A:\r\nHALT") symbolTableInit
    (fun _ => 0) (by decide)
  exact absurd hsame (by decide)

end Dez.Assembler
