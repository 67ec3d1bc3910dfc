import Dez.Assembler.Parser

/-! Reading goes forward: every token taken leaves less of the text, so the loops end. -/
namespace Dez.Assembler

variable {lexer next : Lexer} {α β : Type}

/-- One lexer state comes from another by reading on. -/
structure Leads (lexer next : Lexer) : Prop where
  input : next.input = lexer.input
  left : next.left ≤ lexer.left

theorem Leads.refl (lexer : Lexer) : Leads lexer lexer := ⟨rfl, le_rfl⟩

theorem Leads.trans {last : Lexer} (h1 : Leads lexer next) (h2 : Leads next last) :
    Leads lexer last :=
  ⟨h2.input.trans h1.input, h2.left.trans h1.left⟩

theorem length_run_pos {ok : Byte → Bool} {c : Byte} (rest : List Byte) (h : ok c = true) :
    0 < (((c :: rest).takeWhile ok).take 255).length := by
  simp [h]

theorem scanNumber_length_pos {c : Byte} (rest : List Byte) (h : lexerIsDigit c = true) :
    0 < (scanNumber c rest).length := by
  unfold scanNumber scanPrefixed
  split_ifs
  · simp only
    omega
  · simp only
    omega
  · exact length_run_pos rest h

theorem scanName_length_pos {c : Byte} (rest : List Byte) (h : lexerIsAlpha c = true) :
    0 < (scanName c rest).length :=
  length_run_pos rest (by simp [lexerIsAlnum, h])

theorem scanString_length_pos (rest : List Byte) : 0 < (scanString rest).length := by
  simp only [scanString]
  split <;> simp only <;> omega

/-- Every token but the end takes at least one character. -/
theorem scanToken_length_pos (rest : List Byte) (h : (scanToken rest).type ≠ .eof) :
    0 < (scanToken rest).length := by
  cases rest with
  | nil => simp [scanToken] at h
  | cons c rest =>
    rw [scanToken] at h ⊢
    by_cases h0 : c = 0#8
    · rw [if_pos h0] at h
      exact absurd rfl h
    · rw [if_neg h0]
      split
      · exact Nat.one_pos
      · split_ifs with _ _ hd ha
        · simp only
          omega
        · exact scanString_length_pos rest
        · exact scanNumber_length_pos rest hd
        · exact scanName_length_pos rest ha
        · exact Nat.one_pos

theorem length_scanNumber_le (c : Byte) (text : List Byte) :
    (scanNumber c text).length ≤ text.length + 1 := by
  have hprefixed : ∀ mark digit base, text ≠ [] →
      (scanPrefixed c mark digit base text.tail).length ≤ text.length + 1 := by
    intro mark digit base hne
    have hdigits :=
      (List.take_prefix 253 (text.tail.takeWhile digit)).trans (List.takeWhile_prefix _)
    have hle := hdigits.length_le
    have hpos := List.length_pos_iff.mpr hne
    rw [List.length_tail] at hle
    unfold scanPrefixed
    dsimp only
    omega
  have hne : ∀ {d : Byte}, text.headD 0#8 = d → d ≠ 0#8 → text ≠ [] := by
    rintro d h hd rfl
    exact hd h.symm
  unfold scanNumber
  split
  · rename_i h
    exact hprefixed _ _ _ (hne (of_decide_eq_true (Bool.and_eq_true_iff.mp h).2) (by decide))
  · split
    · rename_i h
      exact hprefixed _ _ _ (hne (of_decide_eq_true (Bool.and_eq_true_iff.mp h).2) (by decide))
    · exact ((List.take_prefix 255 _).trans (List.takeWhile_prefix _)).length_le

theorem length_scanString_le (text : List Byte) :
    (scanString text).length ≤ text.length + 1 := by
  have hprefix := (List.take_prefix 255 (text.takeWhile fun d => d != 0#8 && d != quote)).trans
    (List.takeWhile_prefix _)
  unfold scanString
  dsimp only
  generalize (text.takeWhile fun d => d != 0#8 && d != quote).take 255 = copied at *
  have hle := hprefix.length_le
  split
  · rename_i hquote
    dsimp only
    by_contra hlong
    rw [List.drop_of_length_le (by omega)] at hquote
    cases hquote
  · dsimp only
    omega

/-- A token lies within the text. -/
theorem length_scanToken_le (text : List Byte) : (scanToken text).length ≤ text.length := by
  cases text with
  | nil => exact le_rfl
  | cons c text =>
    rw [scanToken, List.length_cons]
    split
    · exact Nat.zero_le _
    · split
      · exact Nat.le_add_left 1 _
      · split_ifs
        · dsimp only
          rw [Nat.add_comm]
          exact Nat.succ_le_succ (List.takeWhile_prefix _).length_le
        · exact length_scanString_le text
        · exact length_scanNumber_le c text
        · exact ((List.take_prefix 255 _).trans (List.takeWhile_prefix _)).length_le
        · exact Nat.le_add_left 1 _

theorem length_rest_skip (lexer : Lexer) (n : ℕ) :
    (lexer.skip n).rest.length = lexer.rest.length - n := by
  simp only [Lexer.rest, Lexer.skip, List.length_drop]
  omega

theorem skipWhitespace_forward (lexer : Lexer) :
    (lexerSkipWhitespace lexer).input = lexer.input ∧
      (lexerSkipWhitespace lexer).hasToken = lexer.hasToken ∧
      (lexerSkipWhitespace lexer).rest.length ≤ lexer.rest.length := by
  unfold lexerSkipWhitespace lexerSkipComment
  dsimp only
  split
  · refine ⟨rfl, rfl, ?_⟩
    rw [length_rest_skip, length_rest_skip]
    omega
  · refine ⟨rfl, rfl, ?_⟩
    rw [length_rest_skip]
    omega

theorem nextToken_forward (h : lexer.hasToken = false) :
    (lexerNextToken lexer).2.input = lexer.input ∧
      (lexerNextToken lexer).2.hasToken = false ∧
      (lexerNextToken lexer).2.rest.length ≤ lexer.rest.length ∧
      ((lexerNextToken lexer).1.type ≠ .eof →
        (lexerNextToken lexer).2.rest.length < lexer.rest.length) := by
  obtain ⟨hi, ht, hl⟩ := skipWhitespace_forward lexer
  have hpos := scanToken_length_pos (lexerSkipWhitespace lexer).rest
  have hnil : (lexerSkipWhitespace lexer).rest.length = 0 →
      (scanToken (lexerSkipWhitespace lexer).rest).type = .eof := by
    intro h0
    rw [List.length_eq_zero_iff.mp h0]
    rfl
  simp only [lexerNextToken, h, Bool.false_eq_true, if_false]
  by_cases hn : (scanToken (lexerSkipWhitespace lexer).rest).type = .newline
  · have hne : (lexerSkipWhitespace lexer).rest.length ≠ 0 := fun h0 => by simp [hnil h0] at hn
    have hlen : ((lexerSkipWhitespace lexer).input.drop
        ((lexerSkipWhitespace lexer).position + 1)).length =
        (lexerSkipWhitespace lexer).rest.length - 1 := by
      simp only [Lexer.rest, List.length_drop]
      omega
    simp only [hn, if_true, Lexer.rest] at *
    exact ⟨hi, ht.trans h, by omega, fun _ => by omega⟩
  · simp only [hn, if_false]
    refine ⟨hi, ht.trans h, by rw [length_rest_skip]; omega, fun he => ?_⟩
    have hne : (lexerSkipWhitespace lexer).rest.length ≠ 0 := fun h0 => he (hnil h0)
    have := hpos he
    rw [length_rest_skip]
    omega

theorem peek_of_not_hasToken (h : lexer.hasToken = false) :
    lexerPeekToken lexer = ((lexerNextToken lexer).1, { (lexerNextToken lexer).2 with
      currentToken := (lexerNextToken lexer).1, hasToken := true }) := by
  simp [lexerPeekToken, h]

theorem peek_of_hasToken (h : lexer.hasToken = true) :
    lexerPeekToken lexer = (lexer.currentToken, lexer) := by
  simp [lexerPeekToken, h]

theorem hasToken_peek (lexer : Lexer) : (lexerPeekToken lexer).2.hasToken = true := by
  unfold lexerPeekToken
  split
  · assumption
  · rfl

theorem currentToken_peek (lexer : Lexer) :
    (lexerPeekToken lexer).2.currentToken = (lexerPeekToken lexer).1 := by
  unfold lexerPeekToken
  split <;> rfl

/-- Looking twice sees the same token. -/
@[simp] theorem peek_peek (lexer : Lexer) :
    lexerPeekToken (lexerPeekToken lexer).2 = lexerPeekToken lexer := by
  rw [peek_of_hasToken (hasToken_peek lexer), currentToken_peek]

theorem left_of_not_hasToken (h : lexer.hasToken = false) : lexer.left = lexer.rest.length := by
  simp [Lexer.left, h]

theorem left_of_hasToken (h : lexer.hasToken = true) : lexer.left =
    lexer.rest.length + if lexer.currentToken.type ≠ .eof then 1 else 0 := by
  simp [Lexer.left, h]

theorem advance_of_hasToken (h : lexer.hasToken = true) :
    parserAdvance lexer = { lexer with hasToken := false } := by
  simp [parserAdvance, lexerNextToken, h]

theorem peek_leads (lexer : Lexer) : Leads lexer (lexerPeekToken lexer).2 := by
  cases h : lexer.hasToken with
  | true =>
    rw [peek_of_hasToken h]
    exact Leads.refl lexer
  | false =>
    obtain ⟨hi, -, hle, hlt⟩ := nextToken_forward h
    rw [peek_of_not_hasToken h]
    refine ⟨hi, ?_⟩
    rw [left_of_not_hasToken h, left_of_hasToken rfl]
    simp only [Lexer.rest] at *
    split
    · exact hlt ‹_›
    · exact hle

theorem advance_leads (lexer : Lexer) : Leads lexer (parserAdvance lexer) := by
  cases h : lexer.hasToken with
  | true =>
    rw [advance_of_hasToken h]
    refine ⟨rfl, ?_⟩
    rw [left_of_hasToken h, left_of_not_hasToken rfl]
    exact Nat.le_add_right _ _
  | false =>
    obtain ⟨hi, ht, hle, -⟩ := nextToken_forward h
    refine ⟨hi, ?_⟩
    rw [left_of_not_hasToken h, parserAdvance, left_of_not_hasToken ht]
    exact hle

/-- Taking a token that is not the end leaves less to read. -/
theorem advance_left (h : (lexerPeekToken lexer).1.type ≠ .eof) :
    (parserAdvance (lexerPeekToken lexer).2).left < lexer.left := by
  have hpeek := (peek_leads lexer).left
  have ht := hasToken_peek lexer
  rw [advance_of_hasToken ht, left_of_not_hasToken rfl]
  rw [left_of_hasToken ht, currentToken_peek, if_pos h] at hpeek
  exact hpeek

/-- Reading on by calls of the lexer's two functions. -/
inductive Calls (lexer : Lexer) : Lexer → Prop
  | refl : Calls lexer lexer
  | peek {last : Lexer} (h : Calls lexer last) : Calls lexer (lexerPeekToken last).2
  | next {last : Lexer} (h : Calls lexer last) : Calls lexer (lexerNextToken last).2

theorem Calls.trans {last : Lexer} (h1 : Calls lexer next) (h2 : Calls next last) :
    Calls lexer last := by
  induction h2 with
  | refl => exact h1
  | peek _ ih => exact ih.peek
  | next _ ih => exact ih.next

theorem peek_calls (lexer : Lexer) : Calls lexer (lexerPeekToken lexer).2 := Calls.refl.peek

theorem advance_calls (lexer : Lexer) : Calls lexer (parserAdvance lexer) := Calls.refl.next

theorem Calls.leads (h : Calls lexer next) : Leads lexer next := by
  induction h with
  | refl => exact Leads.refl lexer
  | peek _ ih => exact ih.trans (peek_leads _)
  | next _ ih => exact ih.trans (advance_leads _)

namespace Outcome

/-- The lexer a parsing function leaves, however it ends. -/
def final : Outcome α → Lexer
  | ok _ lexer => lexer
  | stuck lexer => lexer
  | fail _ lexer => lexer

theorem calls_bind {outcome : Outcome α} {f : α → Lexer → Outcome β} {first : Lexer}
    (h : Calls first outcome.final) (hf : ∀ a l, Calls l (f a l).final) :
    Calls first (outcome.bind f).final := by
  cases outcome with
  | ok a l => exact h.trans (hf a l)
  | stuck l => exact h
  | fail m l => exact h

end Outcome

theorem consumeToken_calls (lexer : Lexer) (expected : TokenType) :
    Calls lexer (parserConsumeToken lexer expected).2 := by
  unfold parserConsumeToken parserExpectToken parserCurrentToken
  dsimp only
  split
  · exact (peek_calls lexer).trans (advance_calls _)
  · exact peek_calls lexer

theorem expected_calls (lexer : Lexer) (expected : String) :
    Calls lexer (parserExpected (α := α) lexer expected).final := peek_calls lexer

theorem memoryOperand_calls (lexer : Lexer) :
    Calls lexer (parserParseMemoryOperand lexer).final := by
  have h := (advance_calls lexer).trans (peek_calls _)
  unfold parserParseMemoryOperand parserCurrentToken
  dsimp only
  split
  · exact h.trans (expected_calls ..)
  · have hc := h.trans ((advance_calls _).trans (consumeToken_calls _ .rbracket))
    split <;> rename_i hok <;> rw [hok] at hc
    · exact hc
    · exact hc.trans (expected_calls ..)

theorem operand_calls (lexer : Lexer) : Calls lexer (parserParseOperand lexer).final := by
  have h := peek_calls lexer
  have ha := h.trans (advance_calls _)
  unfold parserParseOperand parserCurrentToken
  dsimp only
  split
  · exact ha
  · exact ha
  · exact ha
  · have hp := ha.trans (peek_calls _)
    split
    · exact hp.trans (advance_calls _)
    · exact hp.trans (advance_calls _)
    · exact hp.trans (memoryOperand_calls _)
    · exact hp.trans (expected_calls ..)
  · exact h.trans (memoryOperand_calls _)
  · exact ha
  · exact h.trans (expected_calls ..)

theorem operands_calls (i n : ℕ) (lexer : Lexer) :
    Calls lexer (parserParseOperands i n lexer).final := by
  induction n generalizing i lexer with
  | zero => exact Calls.refl
  | succ n ih =>
    have hc : Calls lexer (if 0 < i then parserConsumeToken lexer .comma else (true, lexer)).2 := by
      split
      · exact consumeToken_calls lexer .comma
      · exact Calls.refl
    unfold parserParseOperands
    split
    · rename_i hok
      rw [hok] at hc
      exact hc.trans (expected_calls ..)
    · rename_i hok
      rw [hok] at hc
      refine Outcome.calls_bind (hc.trans (operand_calls _)) fun operand l => ?_
      exact Outcome.calls_bind (ih (i + 1) l) fun operands l => Calls.refl

/-- An instruction takes its mnemonic first. -/
theorem instruction_calls (lexer : Lexer) :
    Calls lexer (parserParseInstruction lexer).final ∧
      ∀ inst next, parserParseInstruction lexer = .ok inst next →
        Calls (parserAdvance (lexerPeekToken lexer).2) next := by
  have h := peek_calls lexer
  unfold parserParseInstruction parserCurrentToken
  dsimp only
  split
  · exact ⟨h, fun _ _ hok => nomatch hok⟩
  · split
    · exact ⟨h.trans (peek_calls _), fun _ _ hok => nomatch hok⟩
    · rename_i type numOperands _
      have hops := Outcome.calls_bind
        (f := fun operands l => .ok (ParsedInstruction.mk type operands) l)
        (operands_calls 0 numOperands (parserAdvance (lexerPeekToken lexer).2))
        fun operands l => Calls.refl
      refine ⟨h.trans ((advance_calls _).trans hops), fun inst next hok => ?_⟩
      rw [hok] at hops
      exact hops

theorem constant_calls (lexer : Lexer) :
    Calls (parserAdvance (lexerPeekToken lexer).2) (parserParseConstant lexer).final := by
  have hc := consumeToken_calls (parserAdvance (lexerPeekToken lexer).2) .identifier
  have hp := hc.trans (peek_calls _)
  unfold parserParseConstant parserCurrentToken
  dsimp only
  split
  · exact hp.trans (expected_calls ..)
  · have hv := hp.trans ((advance_calls _).trans (peek_calls _))
    split
    · exact hv.trans (expected_calls ..)
    · exact hv.trans (advance_calls _)

theorem skipLine_calls (fuel : ℕ) (lexer : Lexer) : Calls lexer (skipLine fuel lexer) := by
  induction fuel generalizing lexer with
  | zero => exact Calls.refl
  | succ fuel ih =>
    unfold skipLine parserCurrentToken
    dsimp only
    split
    · exact (peek_calls lexer).trans ((advance_calls _).trans (ih _))
    · exact peek_calls lexer

/-- `parser_peek_token` sees the line's first token again. -/
theorem readLine_eq (lexer : Lexer) : readLine lexer =
    let token := (lexerPeekToken lexer).1
    let peeked := (lexerPeekToken lexer).2
    if token.type = .newline then .ok .blank (parserAdvance peeked)
    else if token.type = .comment then .ok .blank (parserAdvance peeked)
    else if token.type = .identifier ∧ endsWithColon peeked then
      .ok (.label token.value token.line) (skipLine (peeked.left + 1) peeked)
    else if token.type = .identifier ∧ token.value.chars = bytes "EQU" then
      parserParseConstant peeked
    else (parserParseInstruction peeked).bind fun inst lexer => .ok (.instruction inst) lexer := by
  unfold readLine parserCurrentToken parserPeekToken
  by_cases h : (lexerPeekToken lexer).1.type = .identifier
  · simp only [h, if_true, peek_peek]
  · simp only [h, if_false]

/-- A line read takes at least its first token. -/
theorem readLine_ok_calls {line : Line} (hl : readLine lexer = .ok line next) :
    Calls (parserAdvance (lexerPeekToken lexer).2) next := by
  rw [readLine_eq] at hl
  dsimp only at hl
  split_ifs at hl with hn hc hlabel hequ
  · cases hl
    exact Calls.refl
  · cases hl
    exact Calls.refl
  · cases hl
    have hskip := skipLine_calls (lexerPeekToken lexer).2.left
      (parserAdvance (lexerPeekToken lexer).2)
    simpa [skipLine, parserCurrentToken, hlabel.1] using hskip
  · have hconst := constant_calls (lexerPeekToken lexer).2
    rw [hl, peek_peek] at hconst
    exact hconst
  · cases hi : parserParseInstruction (lexerPeekToken lexer).2 with
    | ok inst l =>
      rw [hi] at hl
      cases hl
      have hinst := (instruction_calls (lexerPeekToken lexer).2).2 inst next hi
      rwa [peek_peek] at hinst
    | stuck l => simp [hi, Outcome.bind] at hl
    | fail m l => simp [hi, Outcome.bind] at hl

theorem readLine_ok_left {line : Line} (h : (lexerPeekToken lexer).1.type ≠ .eof)
    (hl : readLine lexer = .ok line next) : next.left < lexer.left :=
  lt_of_le_of_lt (readLine_ok_calls hl).leads.left (advance_left h)

theorem readLine_calls (lexer : Lexer) : Calls lexer (readLine lexer).final := by
  have h := peek_calls lexer
  have ha := h.trans (advance_calls _)
  rw [readLine_eq]
  dsimp only
  split_ifs
  · exact ha
  · exact ha
  · exact h.trans (skipLine_calls _ _)
  · have hconst := constant_calls (lexerPeekToken lexer).2
    rw [peek_peek] at hconst
    exact ha.trans hconst
  · exact Outcome.calls_bind (h.trans (instruction_calls _).1) fun inst l => Calls.refl

/-- The tokens a line can start with; at any other one the parser stops without an error. -/
def Token.StartsLine (token : Token) : Prop :=
  token.type = .newline ∨ token.type = .comment ∨ token.type = .identifier

instance (token : Token) : Decidable token.StartsLine := inferInstanceAs (Decidable (_ ∨ _ ∨ _))

theorem expected_ne_stuck (lexer : Lexer) (expected : String) :
    parserExpected (α := α) lexer expected ≠ .stuck next := nofun

theorem memoryOperand_ne_stuck (lexer : Lexer) : parserParseMemoryOperand lexer ≠ .stuck next := by
  unfold parserParseMemoryOperand
  dsimp only
  split
  · exact expected_ne_stuck _ _
  · split
    · exact nofun
    · exact expected_ne_stuck _ _

theorem operand_ne_stuck (lexer : Lexer) : parserParseOperand lexer ≠ .stuck next := by
  unfold parserParseOperand
  dsimp only
  split
  · exact nofun
  · exact nofun
  · exact nofun
  · split
    · exact nofun
    · exact nofun
    · exact memoryOperand_ne_stuck _
    · exact expected_ne_stuck _ _
  · exact memoryOperand_ne_stuck _
  · exact nofun
  · exact expected_ne_stuck _ _

theorem bind_ne_stuck {outcome : Outcome α} {f : α → Lexer → Outcome β}
    (h : ∀ l, outcome ≠ .stuck l) (hf : ∀ a l, f a l ≠ .stuck next) :
    outcome.bind f ≠ .stuck next := by
  cases outcome with
  | ok a l => exact hf a l
  | stuck l => exact absurd rfl (h l)
  | fail m l => exact nofun

theorem operands_ne_stuck (i n : ℕ) (lexer : Lexer) :
    parserParseOperands i n lexer ≠ .stuck next := by
  induction n generalizing i lexer next with
  | zero => exact nofun
  | succ n ih =>
    unfold parserParseOperands
    split
    · exact expected_ne_stuck _ _
    · refine bind_ne_stuck (fun l => operand_ne_stuck _) fun operand l => ?_
      exact bind_ne_stuck (fun l' => ih (i + 1) l) fun operands l' => nofun

theorem constant_ne_stuck (lexer : Lexer) : parserParseConstant lexer ≠ .stuck next := by
  unfold parserParseConstant
  dsimp only
  split
  · exact expected_ne_stuck _ _
  · split
    · exact expected_ne_stuck _ _
    · exact nofun

/-- The parser stops without an error exactly in front of a token no line can start with. -/
theorem readLine_stuck_iff :
    readLine lexer = .stuck next ↔
      ¬ (lexerPeekToken lexer).1.StartsLine ∧ next = (lexerPeekToken lexer).2 := by
  rw [readLine_eq]
  unfold Token.StartsLine
  dsimp only
  split_ifs with hn hc hlabel hequ
  · simp [hn]
  · simp [hc]
  · simp [hlabel.1]
  · exact iff_of_false (constant_ne_stuck _) (by simp [hequ.1])
  · unfold parserParseInstruction parserCurrentToken
    simp only [peek_peek]
    by_cases hi : (lexerPeekToken lexer).1.type = .identifier
    · refine iff_of_false (bind_ne_stuck (fun l => ?_) fun inst l => nofun) (by simp [hi])
      rw [if_neg (by simp [hi])]
      split
      · exact nofun
      · exact bind_ne_stuck (fun l => operands_ne_stuck _ _ _) fun operands l => nofun
    · rw [if_pos hi]
      simp [Outcome.bind, hn, hc, hi, eq_comm]

end Dez.Assembler
