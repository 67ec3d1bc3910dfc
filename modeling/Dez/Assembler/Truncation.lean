import Dez.Assembler.Passes

/-! When a successful `parser_parse` has read its whole text. -/
namespace Dez.Assembler

variable {capacity : ℕ}

/-- Success means that each pass stopped at the end of the text. -/
def ReadsToEnd (stale : ℕ → Word → ℕ → Word) (parser : Parser capacity) : Prop :=
  (parserParse stale parser).1 = true →
    (parserCurrentToken (firstPass stale parser).lexer).1.type = .eof ∧
      (parserCurrentToken (parserParse stale parser).2.lexer).1.type = .eof

/-- The tokens the lines of a text start with, up to the one where the reading stops. -/
def sourceStarts (input : List Byte) : List Token :=
  lineStarts ((lexerInit input).left + 1) (lexerInit input)

theorem readSource_stuck_iff (input : List Byte) :
    (readSource input).ending = .stuck ↔ ∃ token ∈ sourceStarts input, ¬ token.StartsLine := by
  rw [← readSource_eq]
  exact readLines_stuck_iff _

theorem readSource_ending (input : List Byte) :
    (readSource input).ending = .failed ∨
    ((readSource input).ending = .eof ∧
      (lexerPeekToken (readSource input).lexer).1.type = .eof) ∨
    ((readSource input).ending = .stuck ∧
      (lexerPeekToken (readSource input).lexer).1.type ≠ .eof) := by
  rw [← readSource_eq]
  exact readLines_ending _ (Nat.lt_succ_self _)

/-- A successful parse has read everything exactly if no line it came to starts with a token other
than a newline, a comment or an identifier: in front of one it stops without an error. Only a text
whose earlier instructions overflow the output is rejected all the same. -/
theorem reads_to_end_iff (stale : ℕ → Word → ℕ → Word) (input : List Byte) (table : SymbolTable)
    (output : CArray Word capacity) :
    ReadsToEnd stale (parserInit input table output) ↔
      (∀ token ∈ sourceStarts input, token.StartsLine) ∨
        capacity < (sourceInstructions input).length := by
  have hstuck := readSource_stuck_iff input
  have hends := readSource_ending input
  have hiff := parserParse_iff stale table output input
  have hfirst : (firstPass stale (parserInit input table output)).lexer =
      (readSource input).lexer := firstPass_lexer stale table output
  have hlast : (parserParse stale (parserInit input table output)).1 = true →
      (parserParse stale (parserInit input table output)).2.lexer = (readSource input).lexer :=
    fun h => (parserParse_eq h).1
  unfold ReadsToEnd parserCurrentToken
  rw [hfirst]
  constructor
  · intro h
    by_contra hno
    push Not at hno
    obtain ⟨hbad, hroom⟩ := hno
    have hs := hstuck.mpr hbad
    have htrue := hiff.mpr ⟨by simp [hs], hroom⟩
    rcases hends with he | ⟨he, -⟩ | ⟨-, hne⟩
    · simp [hs] at he
    · simp [hs] at he
    · exact hne (h htrue).1
  · intro h htrue
    obtain ⟨hread, hroom⟩ := hiff.mp htrue
    rcases h with hgood | hfull
    · rcases hends with he | ⟨-, heof⟩ | ⟨he, -⟩
      · exact absurd he hread
      · rw [hlast htrue]
        exact ⟨heof, heof⟩
      · obtain ⟨token, hmem, hbad⟩ := hstuck.mp he
        exact absurd (hgood token hmem) hbad
    · omega

/-- A text that starts with a number is assembled to nothing, with success. -/
theorem truncated_silently :
    ¬ ∀ (capacity : ℕ) stale input table (output : CArray Word capacity),
      ReadsToEnd stale (parserInit input table output) := by
  intro h
  have hend := h 1 (fun _ _ _ => 0) (bytes "5\nHALT\n") symbolTableInit (fun _ => 0)
    (by decide)
  exact absurd hend.1 (by decide)

end Dez.Assembler
