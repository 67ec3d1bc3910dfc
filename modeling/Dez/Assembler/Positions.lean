import Dez.Assembler.Tokens

/-! The line and the column that a token carries, against its place in the text. -/
namespace Dez.Assembler

variable {input front text rest : List Byte} {lexer : Lexer} {n k : ℕ}

/-- The number of the line behind some text, counted from 1. -/
def lineBehind (front : List Byte) : ℕ := 1 + front.count newline

/-- The number of the column behind some text, counted from 1. -/
def columnBehind (front : List Byte) : ℕ := 1 + (front.reverse.takeWhile (· != newline)).length

/-- The lexer after some calls of `lexer_next_token`. -/
def lexerAfter (input : List Byte) (k : ℕ) : Lexer :=
  (fun lexer => (lexerNextToken lexer).2)^[k] (lexerInit input)

/-- The text before the first character of the token that call `k` returns. -/
def beforeToken (input : List Byte) (k : ℕ) : List Byte :=
  input.take (lexerSkipWhitespace (lexerAfter input k)).position

/-- The token that call `k` returns says where its first character is. -/
def Placed (input : List Byte) (k : ℕ) : Prop :=
  (lexerNextToken (lexerAfter input k)).1.line = lineBehind (beforeToken input k) ∧
    (lexerNextToken (lexerAfter input k)).1.column = columnBehind (beforeToken input k)

/-- The text starts with a string literal, as far as it fits a token, that spans lines. -/
def SpansLines (text : List Byte) : Prop :=
  text.headD 0#8 = quote ∧
    newline ∈ (text.tail.takeWhile fun d => d != 0#8 && d != quote).take 255

theorem lineBehind_append (h : newline ∉ rest) : lineBehind (front ++ rest) = lineBehind front := by
  rw [lineBehind, List.count_append, List.count_eq_zero_of_not_mem h, Nat.add_zero, lineBehind]

theorem lineBehind_append_lt (h : newline ∈ rest) :
    lineBehind front < lineBehind (front ++ rest) := by
  have hpos := List.count_pos_iff.mpr h
  rw [lineBehind, lineBehind, List.count_append]
  omega

theorem columnBehind_append (h : newline ∉ rest) :
    columnBehind (front ++ rest) = columnBehind front + rest.length := by
  have hpass : ∀ c ∈ rest.reverse, (c != newline) = true := by
    intro c hc
    rw [bne_iff_ne]
    rintro rfl
    exact h (List.mem_reverse.mp hc)
  rw [columnBehind, List.reverse_append, List.takeWhile_append_of_pos hpass, List.length_append,
    List.length_reverse, columnBehind]
  omega

theorem columnBehind_newline (front : List Byte) : columnBehind (front ++ [newline]) = 1 := by
  rw [columnBehind, List.reverse_append, List.reverse_singleton, List.singleton_append,
    List.takeWhile_cons_of_neg (by simp)]
  rfl

namespace Lexer

/-- The text read so far. -/
def passed (lexer : Lexer) : List Byte := lexer.input.take lexer.position

/-- The lexer's line and column are those of its position. -/
def Synced (lexer : Lexer) : Prop :=
  lexer.line = lineBehind lexer.passed ∧ lexer.column = columnBehind lexer.passed

theorem passed_skip (lexer : Lexer) (n : ℕ) :
    (lexer.skip n).passed = lexer.passed ++ lexer.rest.take n :=
  List.take_add

/-- Characters of one line keep the count. -/
theorem synced_skip_iff (hn : n ≤ lexer.rest.length) (hline : newline ∉ lexer.rest.take n) :
    (lexer.skip n).Synced ↔ lexer.Synced := by
  have hcolumn : (lexer.skip n).column = columnBehind (lexer.skip n).passed ↔
      lexer.column = columnBehind lexer.passed := by
    rw [passed_skip, columnBehind_append hline, List.length_take_of_le hn]
    exact Nat.add_right_cancel_iff
  unfold Synced
  rw [hcolumn, passed_skip, lineBehind_append hline]
  rfl

/-- Past a newline the line is too low. -/
theorem not_synced_skip (h : lexer.Synced) (hline : newline ∈ lexer.rest.take n) :
    ¬ (lexer.skip n).Synced := by
  rintro ⟨hl, -⟩
  have hlt := @lineBehind_append_lt lexer.passed (lexer.rest.take n) hline
  rw [← passed_skip, ← hl, ← h.1] at hlt
  exact hlt.ne rfl

end Lexer

theorem newline_notMem_run {p : Byte → Bool} (hp : p newline = false) (text : List Byte) :
    newline ∉ text.take (text.takeWhile p).length := by
  rw [← List.prefix_iff_eq_take.mp (List.takeWhile_prefix p)]
  intro hmem
  rw [List.mem_takeWhile_imp hmem] at hp
  cases hp

/-- Blanks and a comment are on one line. -/
theorem synced_skipWhitespace (lexer : Lexer) :
    (lexerSkipWhitespace lexer).Synced ↔ lexer.Synced := by
  have hrun : ∀ (lexer : Lexer) {p : Byte → Bool}, p newline = false →
      ((lexer.skip (lexer.rest.takeWhile p).length).Synced ↔ lexer.Synced) := by
    intro lexer p hp
    exact Lexer.synced_skip_iff (List.takeWhile_prefix p).length_le (newline_notMem_run hp _)
  unfold lexerSkipWhitespace lexerSkipComment
  dsimp only
  split
  · rw [hrun _ rfl, hrun _ rfl]
  · exact hrun _ rfl

/-- What a string token takes besides its text are its quotes. -/
theorem newline_mem_scanString (rest : List Byte) :
    newline ∈ (quote :: rest).take (scanString rest).length ↔ SpansLines (quote :: rest) := by
  have hquote : newline ≠ quote := by decide
  have hprefix : (rest.takeWhile fun d => d != 0#8 && d != quote).take 255 <+: rest :=
    (List.take_prefix _ _).trans (List.takeWhile_prefix _)
  have hspans : SpansLines (quote :: rest) ↔
      newline ∈ (rest.takeWhile fun d => d != 0#8 && d != quote).take 255 := and_iff_right rfl
  rw [hspans]
  unfold scanString
  dsimp only
  generalize (rest.takeWhile fun d => d != 0#8 && d != quote).take 255 = literal at *
  obtain ⟨behind, rfl⟩ := hprefix
  rw [List.drop_left]
  split
  · rename_i hclosed
    cases behind with
    | nil => cases hclosed
    | cons d behind =>
      obtain rfl : d = quote := hclosed
      dsimp only
      rw [List.take_succ_cons, List.take_append, List.take_of_length_le (Nat.le_succ _),
        Nat.add_sub_cancel_left, List.take_succ_cons, List.take_zero]
      simp [hquote]
  · dsimp only
    rw [List.take_succ_cons, List.take_left]
    simp [hquote]

/-- Of the tokens only a newline and a string literal can have a newline in them. -/
theorem newline_mem_token (text : List Byte) : newline ∈ text.take (scanToken text).length ↔
    (scanToken text).type = .newline ∨ SpansLines text := by
  cases text with
  | nil => simp [scanToken, SpansLines, quote]
  | cons c rest =>
    have hspans : c ≠ quote → ¬ SpansLines (c :: rest) := fun hc h => hc h.1
    have halnum : ∀ text : List Byte, (∀ d ∈ text, lexerIsAlnum d = true) → newline ∉ text := by
      intro text hall hmem
      cases hall _ hmem
    rw [scanToken]
    split
    · rename_i hnul
      simp [hspans (by rw [hnul]; decide)]
    · split
      · rename_i type hsign
        have hc : c ≠ quote := by
          rintro rfl
          cases hsign
        have htype : type = .newline ↔ newline = c := by
          constructor
          · intro h
            exact ((tokenAt_sign rest hsign).newline h).symm
          · rintro rfl
            exact (Option.some.inj hsign).symm
        simp [hspans hc, htype]
      · rename_i hnone
        have hc : c ≠ newline := by
          rintro rfl
          cases hnone
        split_ifs with hcomment hquote hdigit halpha
        · subst hcomment
          dsimp only
          rw [Nat.add_comm, List.take_succ_cons]
          refine iff_of_false ?_ (by simp [hspans (show ch ';' ≠ quote by decide)])
          rw [List.mem_cons, not_or]
          exact ⟨by decide, newline_notMem_run rfl rest⟩
        · subst hquote
          rw [newline_mem_scanString]
          rcases scanString_type rest with ht | ht <;> simp [ht]
        · refine iff_of_false (halnum _ (number_run c rest)) ?_
          simp [scanNumber_type, hspans hquote]
        · refine iff_of_false (halnum _ (run_of_takeWhile (fun d hd => hd) 255 _)) ?_
          rcases scanName_type c rest with ht | ht <;> simp [ht, hspans hquote]
        · simp [hspans hquote, Ne.symm hc]

/-- A call keeps the line and the column with the position unless its token is a literal that spans
lines. -/
theorem synced_nextToken_iff (ht : lexer.hasToken = false) (h : lexer.Synced) :
    (lexerNextToken lexer).2.Synced ↔ ¬ SpansLines (skipBlanks lexer.rest) := by
  have hstart := (synced_skipWhitespace lexer).mpr h
  have hmem := newline_mem_token (lexerSkipWhitespace lexer).rest
  have hlength := length_scanToken_le (lexerSkipWhitespace lexer).rest
  rw [← rest_skipWhitespace]
  simp only [lexerNextToken, ht, Bool.false_eq_true, if_false]
  generalize lexerSkipWhitespace lexer = start at *
  split
  · rename_i hn
    cases hrest : start.rest with
    | nil =>
      rw [hrest] at hn
      cases hn
    | cons c rest =>
      rw [hrest] at hn
      obtain rfl := (scanToken_at c rest).newline hn
      have hpassed : start.input.take (start.position + 1) = start.passed ++ [newline] :=
        List.take_add.trans (congrArg (start.passed ++ ·) (congrArg (List.take 1) hrest))
      refine iff_of_true ⟨?_, ?_⟩ (fun hspans => absurd hspans.1 (show newline ≠ quote by decide))
      · change start.line + 1 = lineBehind (start.input.take (start.position + 1))
        rw [hpassed, lineBehind, List.count_append, hstart.1, lineBehind]
        rfl
      · change 1 = columnBehind (start.input.take (start.position + 1))
        rw [hpassed, columnBehind_newline]
  · rename_i hn
    rw [or_iff_right hn] at hmem
    rw [← hmem]
    constructor
    · exact fun hs hline => Lexer.not_synced_skip hstart hline hs
    · exact fun hline => (Lexer.synced_skip_iff hlength hline).mpr hstart

theorem lexerAfter_succ (input : List Byte) (k : ℕ) :
    lexerAfter input (k + 1) = (lexerNextToken (lexerAfter input k)).2 :=
  Function.iterate_succ_apply' ..

theorem lexerAfter_forward (input : List Byte) (k : ℕ) :
    (lexerAfter input k).input = input ∧ (lexerAfter input k).hasToken = false := by
  induction k with
  | zero => exact ⟨rfl, rfl⟩
  | succ k ih =>
    obtain ⟨hinput, htoken, -⟩ := nextToken_forward ih.2
    rw [lexerAfter_succ]
    exact ⟨hinput.trans ih.1, htoken⟩

/-- A token is placed exactly if the count is right where the call starts. -/
theorem placed_iff (input : List Byte) (k : ℕ) : Placed input k ↔ (lexerAfter input k).Synced := by
  obtain ⟨hinput, htoken⟩ := lexerAfter_forward input k
  have hbefore : beforeToken input k = (lexerSkipWhitespace (lexerAfter input k)).passed := by
    rw [Lexer.passed, (skipWhitespace_forward _).1, hinput]
    rfl
  rw [← synced_skipWhitespace, Placed, hbefore]
  simp only [lexerNextToken, htoken, Bool.false_eq_true, if_false]
  split <;> rfl

/-- The tokens of some calls are all placed if and only if none but the last is a string literal
that spans lines: behind one every token has too low a line. -/
theorem positions_true_iff (input : List Byte) (n : ℕ) : (∀ k ≤ n, Placed input k) ↔
    ∀ k < n, ¬ SpansLines (skipBlanks (lexerAfter input k).rest) := by
  have hstep : ∀ k, (lexerAfter input k).Synced → ((lexerAfter input (k + 1)).Synced ↔
      ¬ SpansLines (skipBlanks (lexerAfter input k).rest)) := by
    intro k h
    rw [lexerAfter_succ]
    exact synced_nextToken_iff (lexerAfter_forward input k).2 h
  simp only [placed_iff]
  constructor
  · intro h k hk
    exact (hstep k (h k hk.le)).mp (h (k + 1) hk)
  · intro h k hk
    induction k with
    | zero => exact ⟨rfl, rfl⟩
    | succ k ih => exact (hstep k (ih (by omega))).mpr (h k hk)

/-- The comma of this text is on its second line, and its token says line 1. -/
theorem position_behind_string : ¬ ∀ input k, Placed input k := by
  intro h
  have hline := (h (bytes "\"a\nb\",") 1).1
  exact absurd hline (by decide)

end Dez.Assembler
