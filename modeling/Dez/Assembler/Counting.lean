import Dez.Assembler.InText
import Dez.Assembler.Passes

/-! The lexer's calls while a text is read, and how far an `int` has to count for them. -/
namespace Dez.Assembler

/-- The lexer moves on in its text, past as many characters as lines at least. -/
structure Onward (lexer last : Lexer) : Prop where
  position : lexer.position ≤ last.position
  line : lexer.line ≤ last.line
  lines : last.line + lexer.position ≤ last.position + lexer.line

/-- The lexer's place is one that an `int` can hold. -/
structure Lexer.Held (lexer : Lexer) : Prop where
  position : lexer.position < 2 ^ 31
  line : lexer.line < 2 ^ 31
  column : lexer.column < 2 ^ 31

/-- A call of the lexer that scans while a text is read: it comes behind the text's start, and the
end of the reading behind it. -/
structure Scans (input : List Byte) (lexer : Lexer) : Prop where
  fresh : lexer.hasToken = false
  before : Calls (lexerInit input) lexer
  behind : Calls (lexerPeekToken lexer).2 (readSource input).lexer ∨
    Calls (lexerNextToken lexer).2 (readSource input).lexer

/-- The places where the reading of a text comes to a line. -/
inductive AtLine (input : List Byte) : Lexer → Prop
  | start : AtLine input (lexerInit input)
  | next {lexer next : Lexer} {line : Line} (h : AtLine input lexer)
    (hmore : (lexerPeekToken lexer).1.type ≠ .eof)
    (hline : readLine (lexerPeekToken lexer).2 = .ok line next) : AtLine input next

/-- An `int` holds the place where the reading of a text ends and the end of the raw line behind
each name that starts a line, and the length of the text as an `int` cuts no number short. -/
structure Counted (input : List Byte) : Prop where
  read : (readSource input).lexer.Held
  ahead : ∀ lexer, AtLine input lexer → (lexerPeekToken lexer).1.type = .identifier →
    (lexerPeekToken lexer).2.position + (lineRun (lexerPeekToken lexer).2.rest).length < 2 ^ 31
  digits : ∀ lexer, Scans input lexer → (lexerSkipWhitespace lexer).DigitsSeen

section place

variable {lexer middle last : Lexer} {text : List Byte}

theorem Onward.refl (lexer : Lexer) : Onward lexer lexer := ⟨le_rfl, le_rfl, Nat.add_comm .. |>.le⟩

theorem Onward.trans (h : Onward lexer middle) (hnext : Onward middle last) :
    Onward lexer last := by
  obtain ⟨hposition, hline, hlines⟩ := h
  obtain ⟨hposition', hline', hlines'⟩ := hnext
  constructor <;> omega

/-- Where a call that scans leaves the lexer. -/
theorem nextToken_behind (h : lexer.hasToken = false) : (lexerNextToken lexer).2 =
    Checked.behind (lexerSkipWhitespace lexer) (scanToken (lexerSkipWhitespace lexer).rest) := by
  unfold lexerNextToken Checked.behind
  rw [h, if_neg Bool.false_ne_true]
  dsimp only
  split <;> rfl

theorem inText_init (h : 0#8 ∉ text) : (lexerInit text).InText where
  within := Nat.zero_le _
  text := h
  line := ⟨le_rfl, le_rfl⟩
  first := fun _ => rfl
  later := fun hlate => absurd hlate (lt_irrefl 1)

theorem Lexer.InText.next (h : lexer.InText) : (lexerNextToken lexer).2.InText := by
  cases htoken : lexer.hasToken with
  | true =>
    have hnext := advance_of_hasToken htoken
    rw [parserAdvance] at hnext
    rw [hnext]
    exact ⟨h.within, h.text, h.line, h.first, h.later⟩
  | false =>
    have hin := h.skip (blanks_le lexer.rest)
    have hscanned := length_scanToken_le (lexer.skip (blanks lexer.rest)).rest
    rw [nextToken_behind htoken, skipWhitespace_blanks]
    unfold Checked.behind
    split
    · rename_i hnewline
      have hlength : (lexer.skip (blanks lexer.rest)).rest.length =
          (lexer.skip (blanks lexer.rest)).input.length -
            (lexer.skip (blanks lexer.rest)).position := List.length_drop
      obtain ⟨hwithin, htext, hline, -, -⟩ := hin
      rw [scanToken_newline hnewline] at hscanned
      constructor <;> dsimp only
      · omega
      · exact htext
      · omega
      · omega
      · omega
    · exact hin.skip hscanned

theorem Lexer.InText.peek (h : lexer.InText) : (lexerPeekToken lexer).2.InText := by
  unfold lexerPeekToken
  split
  · exact h
  · exact ⟨h.next.within, h.next.text, h.next.line, h.next.first, h.next.later⟩

theorem Lexer.InText.calls (h : lexer.InText) (hcalls : Calls lexer last) : last.InText := by
  induction hcalls with
  | refl => exact h
  | peek _ ih => exact ih.peek
  | next _ ih => exact ih.next

/-- A place is held if one further on is: the column is behind the position once a newline is
passed, and one before it until then. -/
theorem Onward.held (h : Onward lexer last) (hin : lexer.InText) (hlast : last.InText)
    (hheld : last.Held) : lexer.Held := by
  obtain ⟨hposition, hline, hlines⟩ := h
  obtain ⟨-, -, hrange, hfirst, hlater⟩ := hin
  obtain ⟨-, -, hrange', hfirst', -⟩ := hlast
  obtain ⟨hheldPosition, hheldLine, hheldColumn⟩ := hheld
  constructor <;> omega

theorem Lexer.Held.skip {n : ℕ} (h : lexer.Held) (hfits : lexer.Fits n) : (lexer.skip n).Held := by
  rcases Nat.eq_zero_or_pos n with rfl | hpos
  · exact h
  · exact ⟨(hfits hpos).1, h.line, (hfits hpos).2⟩

/-- A call that counts no further than an `int` ends where one holds it. -/
theorem Lexer.Held.next (h : lexer.Held) (hfresh : lexer.hasToken = false)
    (hblanks : lexer.Fits (blanks lexer.rest)) (htoken : (lexerSkipWhitespace lexer).TokenFits) :
    (lexerNextToken lexer).2.Held := by
  have hstart := h.skip hblanks
  rw [← skipWhitespace_blanks] at hstart
  rw [nextToken_behind hfresh]
  unfold Lexer.TokenFits at htoken
  unfold Checked.behind
  split
  · rw [if_pos ‹_›] at htoken
    exact ⟨htoken.1, htoken.2, Nat.one_lt_two_pow (by decide)⟩
  · rw [if_neg ‹_›] at htoken
    exact hstart.skip htoken

end place

section reading

variable {input : List Byte} {lexer : Lexer}

/-- One turn of the reading, if what it goes on with calls the lexer only. -/
theorem readLines_turn (fuel : ℕ) (lexer : Lexer)
    (hrest : ∀ next, Calls next (readLines fuel next).lexer) :
    Calls (lexerPeekToken lexer).2 (readLines (fuel + 1) lexer).lexer := by
  by_cases heof : (lexerPeekToken lexer).1.type = .eof
  · rw [readLines_eof heof]
    exact .refl
  · have hcalls := readLine_calls (lexerPeekToken lexer).2
    rcases readLine_cases heof with ⟨line, next, hline, -⟩ | hstuck | ⟨message, next, hfail⟩
    · rw [hline] at hcalls
      rw [readLines_ok heof hline]
      exact hcalls.trans (hrest next)
    · rw [readLines_stuck heof hstuck]
      exact .refl
    · rw [hfail] at hcalls
      rw [readLines_fail heof hfail]
      exact hcalls

/-- The reading goes on from a line to where it ends. -/
theorem readLines_calls (fuel : ℕ) (lexer : Lexer) :
    Calls lexer (readLines fuel lexer).lexer ∧
      Calls (lexerPeekToken lexer).2 (readLines (fuel + 1) lexer).lexer := by
  induction fuel generalizing lexer with
  | zero => exact ⟨.refl, readLines_turn 0 lexer fun _ => .refl⟩
  | succ fuel ih =>
    exact ⟨(peek_calls lexer).trans (ih lexer).2,
      readLines_turn (fuel + 1) lexer fun next => (peek_calls next).trans (ih next).2⟩

theorem AtLine.before (h : AtLine input lexer) : Calls (lexerInit input) lexer := by
  induction h with
  | start => exact .refl
  | @next lexer next line _ _ hline ih =>
    have hcalls := readLine_calls (lexerPeekToken lexer).2
    rw [hline] at hcalls
    exact ih.trans ((peek_calls lexer).trans hcalls)

theorem AtLine.reading (h : AtLine input lexer) : ∃ fuel, lexer.left < fuel + 1 ∧
    (readLines (fuel + 1) lexer).lexer = (readSource input).lexer := by
  induction h with
  | start => exact ⟨_, Nat.lt_succ_self _, congrArg Reading.lexer (readSource_eq input)⟩
  | @next lexer next line _ hmore hline ih =>
    obtain ⟨fuel, hfuel, hreading⟩ := ih
    have hleft := readLine_ok_left (by rwa [peek_peek]) hline
    have hpeek := (peek_leads lexer).left
    rw [readLines_ok hmore hline] at hreading
    obtain ⟨rest, rfl⟩ := Nat.exists_eq_succ_of_ne_zero (show fuel ≠ 0 by omega)
    exact ⟨rest, by omega, hreading⟩

/-- Behind the place of a line the reading comes to its end. -/
theorem AtLine.behind (h : AtLine input lexer) :
    Calls (lexerPeekToken lexer).2 (readSource input).lexer := by
  obtain ⟨fuel, -, hreading⟩ := h.reading
  exact hreading ▸ (readLines_calls fuel lexer).2

end reading

end Dez.Assembler
