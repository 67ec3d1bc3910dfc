import Dez.Assembler.Tokens
import Dez.Assembler.Passes

/-! The parser as a function of the tokens alone. -/
namespace Dez.Assembler

/-- The ends of a parsing function, without messages and positions. -/
inductive Parse (α : Type)
  | ok (value : α) (rest : List Item)
  | stuck
  | fail
  deriving DecidableEq

def Parse.bind {α β : Type} (parse : Parse α) (f : α → List Item → Parse β) : Parse β :=
  match parse with
  | .ok value rest => f value rest
  | .stuck => .stuck
  | .fail => .fail

/-- The operand behind an opening bracket. -/
def memoryOperandOf (items : List Item) : Parse Operand :=
  let token := headLexeme items.tail
  let operand : Option Operand :=
    match token.type with
    | .number => some (.memory token.numValue)
    | .identifier => some (.memoryLabel (token.value.copy 63))
    | _ => none
  match operand with
  | none => .fail
  | some operand =>
    if (headLexeme items.tail.tail).type = .rbracket then .ok operand items.tail.tail.tail
    else .fail

def operandOf (items : List Item) : Parse Operand :=
  let token := headLexeme items
  match token.type with
  | .register =>
    let number := registerNameToNumber token.value.chars
    .ok (.register ⟨number.toNat, registerNameToNumber_lt _⟩) items.tail
  | .string => .ok (.string token.value) items.tail
  | .number => .ok (.immediate token.numValue) items.tail
  | .hash =>
    let token := headLexeme items.tail
    match token.type with
    | .number => .ok (.immediate token.numValue) items.tail.tail
    | .identifier => .ok (namedOperand token.value) items.tail.tail
    | .lbracket => memoryOperandOf items.tail
    | _ => .fail
  | .lbracket => memoryOperandOf items
  | .identifier => .ok (namedOperand token.value) items.tail
  | _ => .fail

/-- The operands from number `i` on. -/
def operandsOf (i : ℕ) : ℕ → List Item → Parse (List Operand)
  | 0, items => .ok [] items
  | n + 1, items =>
    if 0 < i ∧ (headLexeme items).type ≠ .comma then .fail
    else
      (operandOf (if 0 < i then items.tail else items)).bind fun operand items =>
      (operandsOf (i + 1) n items).bind fun operands items =>
      .ok (operand :: operands) items

def instructionOf (items : List Item) : Parse ParsedInstruction :=
  let token := headLexeme items
  if token.type ≠ .identifier then .stuck
  else
    match instructionNamed token.value.chars with
    | none => .fail
    | some (type, numOperands) =>
      (operandsOf 0 numOperands items.tail).bind fun operands items => .ok ⟨type, operands⟩ items

/-- The line of the first token. -/
def headLine (items : List Item) : ℕ := (items.head?.map Item.line).getD 0

/-- The line of the first token ends with a colon. -/
def headColon (items : List Item) : Bool := (items.head?.map Item.colon).getD false

def constantOf (items : List Item) : Parse Line :=
  let found := (headLexeme items.tail).type = .identifier
  let behind := if found then items.tail.tail else items.tail
  if ¬ found ∨ (headLexeme behind).value.chars ≠ bytes "EQU" then .fail
  else if (headLexeme behind.tail).type ≠ .number then .fail
  else .ok (.constant (headLexeme items).value (headLexeme behind.tail).numValue (headLine items))
    behind.tail.tail

/-- One line. -/
def lineOf (items : List Item) : Parse Line :=
  let token := headLexeme items
  if token.type = .newline then .ok .blank items.tail
  else if token.type = .comment then .ok .blank items.tail
  else if token.type = .identifier ∧ headColon items then
    .ok (.label token.value (headLine items))
      (items.dropWhile fun item => item.lexeme.type ≠ .newline)
  else if token.type = .identifier ∧ token.value.chars = bytes "EQU" then constantOf items
  else (instructionOf items).bind fun inst items => .ok (.instruction inst) items

/-- The lines, and how their reading ends. -/
def linesOf : ℕ → List Item → List Line × Ending
  | 0, _ => ([], .eof)
  | fuel + 1, items =>
    if (headLexeme items).type = .eof then ([], .eof)
    else
      match lineOf items with
      | .ok line items => (line :: (linesOf fuel items).1, (linesOf fuel items).2)
      | .stuck => ([], .stuck)
      | .fail => ([], .failed)

/-- How a line is read: by its first token, by the test for labels, or word by word. -/
inductive ReadsLine (items : List Item) : Line → List Item → Prop
  | blank (h : (headLexeme items).type = .newline ∨ (headLexeme items).type = .comment) :
      ReadsLine items .blank items.tail
  | label (hi : (headLexeme items).type = .identifier) (hcolon : headColon items = true) :
      ReadsLine items (.label (headLexeme items).value (headLine items))
        (items.dropWhile fun item => item.lexeme.type ≠ .newline)
  | constant {line : Line} {rest : List Item} (hi : (headLexeme items).type = .identifier)
      (hcolon : headColon items = false) (hequ : (headLexeme items).value.chars = bytes "EQU")
      (h : constantOf items = .ok line rest) : ReadsLine items line rest
  | instruction {inst : ParsedInstruction} {rest : List Item}
      (hi : (headLexeme items).type = .identifier) (hcolon : headColon items = false)
      (hequ : (headLexeme items).value.chars ≠ bytes "EQU")
      (h : instructionOf items = .ok inst rest) : ReadsLine items (.instruction inst) rest

/-- A parsing function on the lexer ends as one on the tokens does. -/
inductive Matches {α : Type} : Outcome α → Parse α → Prop
  | ok {value : α} {l : Lexer} {items : List Item} (h : Reads l items) :
      Matches (.ok value l) (.ok value items)
  | stuck {l : Lexer} : Matches (.stuck l) .stuck
  | fail {message : Message} {l : Lexer} : Matches (.fail message l) .fail

variable {lexer : Lexer} {items : List Item} {α β : Type}

theorem Parse.bind_eq_ok {parse : Parse α} {f : α → List Item → Parse β} {value : β}
    {rest : List Item} (h : parse.bind f = .ok value rest) :
    ∃ first behind, parse = .ok first behind ∧ f first behind = .ok value rest := by
  cases parse with
  | ok first behind => exact ⟨first, behind, rfl, h⟩
  | stuck => cases h
  | fail => cases h

theorem constantOf_ok {line : Line} {rest : List Item} (h : constantOf items = .ok line rest) :
    (∃ value, line = .constant (headLexeme items).value value (headLine items)) ∧
      rest <:+ items := by
  have hthree : items.tail.tail.tail <:+ items :=
    (List.tail_suffix _).trans ((List.tail_suffix _).trans (List.tail_suffix _))
  unfold constantOf at h
  dsimp only at h
  split_ifs at h
  · cases h
    exact ⟨⟨_, rfl⟩, (List.tail_suffix _).trans hthree⟩
  · cases h
    exact ⟨⟨_, rfl⟩, hthree⟩

theorem lineOf_ok {line : Line} {rest : List Item} (h : lineOf items = .ok line rest) :
    ReadsLine items line rest := by
  unfold lineOf at h
  dsimp only at h
  split_ifs at h with hn hc hlabel hequ
  · cases h
    exact .blank (.inl hn)
  · cases h
    exact .blank (.inr hc)
  · cases h
    exact .label hlabel.1 hlabel.2
  · have hcolon : ¬ headColon items = true := fun hcolon => hlabel ⟨hequ.1, hcolon⟩
    exact .constant hequ.1 (Bool.eq_false_iff.mpr hcolon) hequ.2 h
  · obtain ⟨inst, behind, hread, h⟩ := Parse.bind_eq_ok h
    cases h
    have hi : (headLexeme items).type = .identifier := by
      by_contra hi
      unfold instructionOf at hread
      rw [if_pos hi] at hread
      cases hread
    have hcolon : ¬ headColon items = true := fun hcolon => hlabel ⟨hi, hcolon⟩
    exact .instruction hi (Bool.eq_false_iff.mpr hcolon) (fun hname => hequ ⟨hi, hname⟩) hread

theorem Matches.bind {outcome : Outcome α} {parse : Parse α} {f : α → Lexer → Outcome β}
    {g : α → List Item → Parse β} (h : Matches outcome parse)
    (hf : ∀ a l items, Reads l items → Matches (f a l) (g a items)) :
    Matches (outcome.bind f) (parse.bind g) := by
  cases h with
  | ok h => exact hf _ _ _ h
  | stuck => exact .stuck
  | fail => exact .fail

theorem Reads.type (h : Reads lexer items) :
    (lexerPeekToken lexer).1.type = (headLexeme items).type := congrArg Lexeme.type h.lexeme

theorem Reads.value (h : Reads lexer items) :
    (lexerPeekToken lexer).1.value = (headLexeme items).value := congrArg Lexeme.value h.lexeme

theorem Reads.numValue (h : Reads lexer items) :
    (lexerPeekToken lexer).1.numValue = (headLexeme items).numValue :=
  congrArg Lexeme.numValue h.lexeme

theorem Reads.consume {expected : TokenType} (h : Reads lexer items)
    (ht : (headLexeme items).type = expected) :
    ∃ next, parserConsumeToken lexer expected = (true, next) ∧ Reads next items.tail := by
  refine ⟨_, ?_, h.peek.advance⟩
  simp only [parserConsumeToken, parserExpectToken, parserCurrentToken, h.type, ht, decide_true,
    if_true]

theorem Reads.not_consume {expected : TokenType} (h : Reads lexer items)
    (ht : (headLexeme items).type ≠ expected) :
    ∃ next, parserConsumeToken lexer expected = (false, next) ∧ Reads next items := by
  refine ⟨_, ?_, h.peek⟩
  simp only [parserConsumeToken, parserExpectToken, parserCurrentToken, h.type, ht, decide_false,
    Bool.false_eq_true, if_false]

theorem expected_matches (lexer : Lexer) (expected : String) :
    Matches (α := α) (parserExpected lexer expected) .fail := .fail

/-- What is left once the operand in the brackets is known. -/
theorem closing_matches (operand : Operand) (h : Reads lexer items) :
    Matches
      (match parserConsumeToken lexer .rbracket with
        | (true, lexer) => .ok operand lexer
        | (false, lexer) => parserExpected lexer "]")
      (if (headLexeme items).type = .rbracket then .ok operand items.tail else .fail) := by
  by_cases ht : (headLexeme items).type = .rbracket
  · obtain ⟨next, hconsume, hnext⟩ := h.consume ht
    rw [hconsume, if_pos ht]
    exact .ok hnext
  · obtain ⟨next, hconsume, -⟩ := h.not_consume ht
    rw [hconsume, if_neg ht]
    exact expected_matches _ _

theorem memoryOperand_matches (h : Reads lexer items) :
    Matches (parserParseMemoryOperand lexer) (memoryOperandOf items) := by
  have ha := h.advance
  have hclose := fun operand => closing_matches operand ha.peek.advance
  unfold parserParseMemoryOperand memoryOperandOf parserCurrentToken
  simp only [ha.type, ha.value, ha.numValue]
  cases (headLexeme items.tail).type with
  | number => exact hclose _
  | identifier => exact hclose _
  | _ => exact expected_matches _ _

theorem operand_matches (h : Reads lexer items) :
    Matches (parserParseOperand lexer) (operandOf items) := by
  have ha := h.peek.advance
  have hpa := ha.peek.advance
  unfold parserParseOperand operandOf parserCurrentToken
  simp only [h.type, h.value, h.numValue]
  cases (headLexeme items).type with
  | register | string | number | identifier => exact .ok ha
  | lbracket => exact memoryOperand_matches h.peek
  | hash =>
    simp only [ha.type, ha.value, ha.numValue]
    cases (headLexeme items.tail).type with
    | number | identifier => exact .ok hpa
    | lbracket => exact memoryOperand_matches ha.peek
    | _ => exact expected_matches _ _
  | _ => exact expected_matches _ _

theorem operands_matches (i n : ℕ) (h : Reads lexer items) :
    Matches (parserParseOperands i n lexer) (operandsOf i n items) := by
  induction n generalizing i lexer items with
  | zero => exact .ok h
  | succ n ih =>
    have hrest : ∀ {next : Lexer} {rest : List Item}, Reads next rest →
        Matches
          ((parserParseOperand next).bind fun operand lexer =>
            (parserParseOperands (i + 1) n lexer).bind fun operands lexer =>
            .ok (operand :: operands) lexer)
          ((operandOf rest).bind fun operand items =>
            (operandsOf (i + 1) n items).bind fun operands items =>
            .ok (operand :: operands) items) := by
      intro next rest hnext
      refine (operand_matches hnext).bind fun operand l items hl => ?_
      exact (ih (i + 1) hl).bind fun operands l items hl => .ok hl
    unfold parserParseOperands operandsOf
    by_cases hi : 0 < i
    · rw [if_pos hi]
      by_cases hcomma : (headLexeme items).type = .comma
      · obtain ⟨next, hconsume, hnext⟩ := h.consume hcomma
        rw [hconsume, if_neg (fun hno => hno.2 hcomma), if_pos hi]
        exact hrest hnext
      · obtain ⟨next, hconsume, -⟩ := h.not_consume hcomma
        rw [hconsume, if_pos ⟨hi, hcomma⟩]
        exact expected_matches _ _
    · rw [if_neg hi, if_neg (fun hno => hi hno.1), if_neg hi]
      exact hrest h

theorem instruction_matches (h : Reads lexer items) :
    Matches (parserParseInstruction lexer) (instructionOf items) := by
  unfold parserParseInstruction instructionOf parserCurrentToken
  simp only [h.type, h.value]
  by_cases hi : (headLexeme items).type = .identifier
  · rw [if_neg (not_not_intro hi), if_neg (not_not_intro hi)]
    cases instructionNamed (headLexeme items).value.chars with
    | none => exact .fail
    | some entry =>
      refine (operands_matches 0 entry.2 h.peek.advance).bind fun operands l items hl => ?_
      exact .ok hl
  · rw [if_pos hi, if_pos hi]
    exact .stuck

theorem headLexeme_ne_nil (h : (headLexeme items).type ≠ .eof) :
    ∃ item rest, items = item :: rest := by
  cases items with
  | nil => exact absurd rfl h
  | cons item rest => exact ⟨item, rest, rfl⟩

theorem Reads.headLine (h : Reads lexer items) (ht : (headLexeme items).type ≠ .eof) :
    (lexerPeekToken lexer).1.line = headLine items := by
  obtain ⟨item, rest, rfl⟩ := headLexeme_ne_nil ht
  exact h.tokenLine

theorem constant_matches (h : Reads lexer items) (hi : (headLexeme items).type = .identifier) :
    Matches (parserParseConstant lexer) (constantOf items) := by
  have hline := h.headLine (by rw [hi]; exact nofun)
  have ha := h.peek.advance
  unfold parserParseConstant constantOf parserCurrentToken
  by_cases hfound : (headLexeme items.tail).type = .identifier
  · obtain ⟨next, hconsume, hnext⟩ := ha.consume hfound
    have hv := hnext.peek.advance
    simp only [hconsume, hnext.value, hfound, Bool.not_true, Bool.false_or, decide_eq_true_eq,
      if_true, not_true_eq_false, false_or]
    split
    · exact expected_matches _ _
    · simp only [hv.type, hv.numValue, h.value, hline]
      split
      · exact expected_matches _ _
      · exact .ok hv.peek.advance
  · obtain ⟨next, hconsume, -⟩ := ha.not_consume hfound
    simp only [hconsume, hfound, Bool.not_false, Bool.true_or, if_true, not_false_eq_true, true_or]
    exact expected_matches _ _

/-- The rest of a label's line is skipped. -/
theorem skipLine_reads (fuel : ℕ) (h : Reads lexer items) (hfuel : lexer.left < fuel) :
    Reads (skipLine fuel lexer) (items.dropWhile fun item => item.lexeme.type ≠ .newline) := by
  induction fuel generalizing lexer items with
  | zero => omega
  | succ fuel ih =>
    unfold skipLine parserCurrentToken
    simp only [h.type]
    cases items with
    | nil =>
      rw [if_neg (fun hno => hno.2 rfl)]
      exact h.peek
    | cons item rest =>
      have hhead : headLexeme (item :: rest) = item.lexeme := rfl
      by_cases hn : item.lexeme.type = .newline
      · rw [hhead, if_neg (fun hno => hno.1 hn), List.dropWhile_cons_of_neg (by simp [hn])]
        exact h.peek
      · have heof := h.type_ne_eof
        rw [hhead, if_pos ⟨hn, heof⟩, List.dropWhile_cons_of_pos (by simp [hn])]
        have hlt : (parserAdvance (lexerPeekToken lexer).2).left < lexer.left :=
          advance_left (by rwa [h.type])
        exact ih h.peek.advance (by omega)

theorem line_matches (h : Reads lexer items) : Matches (readLine lexer) (lineOf items) := by
  rw [readLine_eq]
  unfold lineOf
  simp only [h.type, h.value]
  by_cases hn : (headLexeme items).type = .newline
  · rw [if_pos hn, if_pos hn]
    exact .ok h.peek.advance
  rw [if_neg hn, if_neg hn]
  by_cases hc : (headLexeme items).type = .comment
  · rw [if_pos hc, if_pos hc]
    exact .ok h.peek.advance
  rw [if_neg hc, if_neg hc]
  by_cases hi : (headLexeme items).type = .identifier
  · have heof : (headLexeme items).type ≠ .eof := by rw [hi]; exact nofun
    obtain ⟨item, rest, rfl⟩ := headLexeme_ne_nil heof
    have hcolon : endsWithColon (lexerPeekToken lexer).2 = headColon (item :: rest) :=
      h.endsWithColon hi
    simp only [hi, hcolon, h.headLine heof, true_and]
    split
    · exact .ok (skipLine_reads _ h.peek (Nat.lt_succ_self _))
    · split
      · exact constant_matches h.peek hi
      · refine (instruction_matches h.peek).bind fun inst l items hl => ?_
        exact .ok hl
  · simp only [hi, false_and, if_false]
    refine (instruction_matches h.peek).bind fun inst l items hl => ?_
    exact .ok hl

/-- The lines of a text are those of its tokens. -/
theorem lines_match (fuel : ℕ) (h : Reads lexer items) :
    (readLines fuel lexer).lines = (linesOf fuel items).1 ∧
      (readLines fuel lexer).ending = (linesOf fuel items).2 := by
  induction fuel generalizing lexer items with
  | zero => exact ⟨rfl, rfl⟩
  | succ fuel ih =>
    unfold readLines linesOf parserCurrentToken
    simp only [h.type]
    split
    · exact ⟨rfl, rfl⟩
    · have hline := line_matches h.peek
      revert hline
      generalize readLine (lexerPeekToken lexer).2 = outcome
      generalize lineOf items = parse
      intro hline
      cases hline with
      | ok hl => exact ⟨congrArg (_ :: ·) (ih hl).1, (ih hl).2⟩
      | stuck => exact ⟨rfl, rfl⟩
      | fail => exact ⟨rfl, rfl⟩

theorem readSource_lines (input : List Byte) :
    (readSource input).lines = (linesOf (input.length + 1) (textItems input)).1 ∧
      (readSource input).ending = (linesOf (input.length + 1) (textItems input)).2 := by
  have hleft : (lexerInit input).left = input.length := left_of_not_hasToken rfl
  rw [← readSource_eq, hleft]
  exact lines_match _ (reads_init input)

theorem lineOf_of_mem {fuel : ℕ} {line : Line} (h : line ∈ (linesOf fuel items).1) :
    ∃ place rest, lineOf place = .ok line rest := by
  induction fuel generalizing items with
  | zero => cases h
  | succ fuel ih =>
    unfold linesOf at h
    split at h
    · cases h
    · cases hline : lineOf items with
      | stuck =>
        rw [hline] at h
        cases h
      | fail =>
        rw [hline] at h
        cases h
      | ok first rest =>
        rw [hline] at h
        rcases List.mem_cons.mp h with rfl | hmem
        · exact ⟨items, rest, hline⟩
        · exact ih hmem

/-- The test for a constant looks at the name again, and not at the word behind it. -/
theorem constant_name {input : List Byte} {name : CString 255} {value : Word} {number : ℕ}
    (h : .constant name value number ∈ (readSource input).lines) : name.chars = bytes "EQU" := by
  rw [(readSource_lines input).1] at h
  obtain ⟨place, rest, hline⟩ := lineOf_of_mem h
  cases lineOf_ok hline with
  | constant _ _ hequ hread =>
    obtain ⟨⟨found, hline⟩, -⟩ := constantOf_ok hread
    cases hline
    exact hequ

end Dez.Assembler
