import Dez.Assembler.LabelLines
import Dez.Assembler.Readings
import Dez.Assembler.Definitions

/-! What the parser makes of lines that define a constant. -/
namespace Dez.Assembler
variable {lexer : Lexer} {items line before : List Item} {text rest input : List Byte} {number : ℕ}
  {name : CString 255} {v : Word} {c : Byte}

/-- A line `NAME EQU v` of a text: its tokens and those behind it, after those of the lines before.
The name is free for a constant, and nothing else in the text defines it. -/
structure EquLine (input : List Byte) (before line : List Item) (name : CString 255) (v : Word) :
    Prop where
  tokens : textItems input = before ++ line
  starts : ∀ item ∈ before.getLast?, item.lexeme.type = .newline
  head : (headLexeme line).type = .identifier ∧ (headLexeme line).value = name
  equ : (headLexeme line.tail).type = .identifier ∧
    (headLexeme line.tail).value.chars = bytes "EQU"
  value : (headLexeme line.tail.tail).type = .number ∧ (headLexeme line.tail.tail).numValue = v
  ends : (headLexeme line.tail.tail.tail).type = .newline ∨
    (headLexeme line.tail.tail.tail).type = .eof
  short : name.chars.length < 64
  small : v.toNat ≤ 4095
  free : instructionNamed name.chars = none ∧ systemCall name.chars = none
  once : ∀ other ∈ (readSource input).lines, other.defines = some name →
    other = .constant name v (headLine line)

section text

/-- A colon at the end of a line is behind the letters, digits and blanks it starts with. -/
theorem colonEnds_run {run : List Byte}
    (hrun : ∀ d ∈ run, lexerIsAlnum d = true ∨ lexerIsWhitespace d = true)
    (h : colonEnds rest = false) : colonEnds (run ++ rest) = false := by
  have hpass : ∀ d ∈ run, (d != 0#8 && d != newline && d != ch ';') = true := by
    intro d hd
    by_contra hno
    have hbad : d = 0#8 ∨ d = newline ∨ d = ch ';' := by
      simp only [Bool.and_eq_true, bne_iff_ne, ne_eq] at hno
      tauto
    rcases hrun d hd with hd | hd <;> rcases hbad with rfl | rfl | rfl <;> cases hd
  have hcolon : ch ':' ∉ run := by
    intro hmem
    rcases hrun _ hmem with hd | hd <;> cases hd
  have hline : rawLine (run ++ rest) = run ++ rawLine rest := List.takeWhile_append_of_pos hpass
  by_contra hends
  obtain ⟨front, blanks, hsplit, hblanks⟩ := colonEnds_iff.mp (Bool.not_eq_false _ ▸ hends)
  rw [hline] at hsplit
  have hrest : colonEnds rest = true := by
    apply colonEnds_iff.mpr
    rcases List.append_eq_append_iff.mp hsplit with ⟨more, rfl, hmore⟩ | ⟨more, hfront, hmore⟩
    · exact ⟨more, blanks, hmore, hblanks⟩
    · cases more with
      | nil => exact ⟨[], blanks, hmore.symm, hblanks⟩
      | cons d more =>
        obtain ⟨rfl, -⟩ := List.cons.inj hmore
        exact absurd (hfront ▸ List.mem_append_right _ List.mem_cons_self) hcolon
  rw [h] at hrest
  cases hrest

end text

section items

/-- A name or a number of a text: its test for labels looks at the text behind it, and decides that
of the text before. -/
theorem itemsFrom_head (h : (headLexeme (itemsFrom number text)).type = .identifier ∨
      (headLexeme (itemsFrom number text)).type = .number) :
    ∃ rest, (itemsFrom number text).tail = itemsFrom number rest ∧
      headColon (itemsFrom number text) = colonEnds rest ∧
      (colonEnds rest = false → colonEnds text = false) := by
  rw [headLexeme_itemsFrom] at h
  have hline : (scanToken (skipBlanks text)).type ≠ .newline := by
    rcases h with h | h <;> rw [h] <;> exact nofun
  have heof : (scanToken (skipBlanks text)).type ≠ .eof := by
    rcases h with h | h <;> rw [h] <;> exact nofun
  refine ⟨(skipBlanks text).drop (scanToken (skipBlanks text)).length, ?_, ?_, ?_⟩
  · rw [itemsFrom_eq]
    dsimp only
    rw [if_neg heof, if_neg hline, List.tail_cons]
  · rw [itemsFrom_eq]
    dsimp only
    rw [if_neg heof]
    rfl
  · intro hbehind
    obtain ⟨gap, htext, hgap⟩ := skipBlanks_gap hline heof
    rw [htext, ← List.take_append_drop (scanToken (skipBlanks text)).length (skipBlanks text),
      ← List.append_assoc]
    apply colonEnds_run _ hbehind
    intro d hd
    rcases List.mem_append.mp hd with hd | hd
    · exact .inr (hgap d hd)
    · exact .inl (token_run h d hd)

theorem notMem_scanNumber (c : Byte) (rest : List Byte) : ch 'Q' ∉ (scanNumber c rest).text := by
  have hprefixed : ∀ (mark : Byte) (digit : Byte → Bool) (base : ℕ) (rest : List Byte),
      ch 'Q' ≠ mark → digit (ch 'Q') = false →
        ch 'Q' ∉ (scanPrefixed (ch '0') mark digit base rest).text := by
    intro mark digit base rest hmark hdigit hmem
    rcases List.mem_cons.mp hmem with hc | hmem
    · cases hc
    · rcases List.mem_cons.mp hmem with hc | hmem
      · exact hmark hc
      · have hpass := List.mem_takeWhile_imp (List.mem_of_mem_take hmem)
        rw [hdigit] at hpass
        cases hpass
  unfold scanNumber
  split
  · rename_i h
    rw [Bool.and_eq_true, decide_eq_true_eq] at h
    rw [h.1]
    exact hprefixed _ _ _ _ (by decide) rfl
  · split
    · rename_i h
      rw [Bool.and_eq_true, decide_eq_true_eq] at h
      rw [h.1]
      exact hprefixed _ _ _ _ (by decide) rfl
    · intro hmem
      cases List.mem_takeWhile_imp (List.mem_of_mem_take hmem)

/-- No number is spelled like the word. -/
theorem number_ne_equ (h : (headLexeme (itemsFrom number text)).type = .number) :
    (headLexeme (itemsFrom number text)).value.chars ≠ bytes "EQU" := by
  have htype := h
  rw [headLexeme_itemsFrom] at htype
  have hvalue : (headLexeme (itemsFrom number text)).value =
      .ofBytes 255 (scanToken (skipBlanks text)).text := by
    rw [itemsFrom_eq]
    dsimp only
    rw [if_neg (by rw [htype]; exact nofun)]
    rfl
  rw [hvalue]
  generalize skipBlanks text = rest at htype
  cases rest with
  | nil => cases htype
  | cons c rest =>
    rw [(scanToken_at c rest).number htype]
    intro hchars
    have hmem : ch 'Q' ∈ (CString.ofBytes 255 (scanNumber c rest).text).chars := by
      rw [hchars]
      decide
    have hrun := List.mem_of_mem_take hmem
    exact notMem_scanNumber c rest ((List.takeWhile_prefix _).subset hrun)

theorem not_colonEnds (h : (headLexeme (itemsFrom number text)).type = .newline ∨
    (headLexeme (itemsFrom number text)).type = .eof) : colonEnds text = false := by
  rw [headLexeme_itemsFrom, lineEnds_iff] at h
  by_contra hends
  obtain ⟨front, blanks, hline, -⟩ := colonEnds_iff.mp (Bool.not_eq_false _ ▸ hends)
  have hcolon := h (ch ':') (by simp [hline])
  cases hcolon

/-- Of `NAME EQU v` the test for constants looks at the name twice: the name is no `EQU`, or the
value is not, and as an instruction it is unknown. -/
theorem lineOf_equ (hi : (headLexeme items).type = .identifier) (hcolon : headColon items = false)
    (hequ : (headLexeme items.tail).type = .identifier)
    (hvalue : (headLexeme items.tail.tail).value.chars ≠ bytes "EQU")
    (hfree : instructionNamed (headLexeme items).value.chars = none) : lineOf items = .fail := by
  unfold lineOf
  dsimp only
  rw [if_neg (by rw [hi]; exact nofun), if_neg (by rw [hi]; exact nofun), if_neg (by simp [hcolon])]
  split
  · unfold constantOf
    dsimp only
    rw [if_pos hequ, if_pos (.inr hvalue)]
  · unfold instructionOf
    dsimp only
    rw [if_neg (not_not_intro hi), hfree]
    rfl

/-- Such a line cannot be read. -/
theorem EquLine.lineOf_fail (h : EquLine input before line name v) : lineOf line = .fail := by
  obtain ⟨number, text, -, rfl⟩ := itemsFrom_suffix (h.tokens ▸ List.suffix_append before line)
  obtain ⟨rest, hrest, hcolon, -⟩ := itemsFrom_head (.inl h.head.1)
  have hequ := h.equ
  have hvalue := h.value
  have hlast := h.ends
  rw [hrest] at hequ hvalue hlast
  obtain ⟨rest', hrest', -, hends⟩ := itemsFrom_head (.inl hequ.1)
  rw [hrest'] at hvalue hlast
  obtain ⟨rest'', hrest'', -, hends'⟩ := itemsFrom_head (.inr hvalue.1)
  rw [hrest''] at hlast
  have hplain := hcolon.trans (hends (hends' (not_colonEnds hlast)))
  apply lineOf_equ h.head.1 hplain
  · rw [hrest]
    exact hequ.1
  · rw [hrest, hrest']
    exact number_ne_equ hvalue.1
  · rw [h.head.2]
    exact h.free.1

end items

section parser

variable {capacity : ℕ}

/-- Looking at the first token changes nothing of the reading. -/
theorem readLines_peek (fuel : ℕ) (lexer : Lexer) :
    readLines (fuel + 1) (lexerPeekToken lexer).2 = readLines (fuel + 1) lexer := by
  simp only [readLines, parserCurrentToken, peek_peek]
  rfl

/-- No line is read at the end of the text. -/
theorem ne_eof_of_read (h : readLine lexer ≠ .stuck (lexerPeekToken lexer).2) :
    (lexerPeekToken lexer).1.type ≠ .eof := by
  intro heof
  apply h
  apply readLine_stuck_iff.mpr
  simp [Token.StartsLine, heof]

/-- From the start of any line the reading ends as that of the text does. -/
theorem LineStart.ending (h : LineStart input lexer) :
    ∃ fuel, lexer.left < fuel ∧ (readLines fuel lexer).ending = (readSource input).ending := by
  induction h with
  | first =>
    refine ⟨(lexerInit input).left + 1, ?_, ?_⟩
    · exact Nat.lt_succ_of_le (peek_leads _).left
    · rw [← readSource_eq]
      exact congrArg Reading.ending (readLines_peek _ _)
  | @next lexer behind read hstart hread ih =>
    obtain ⟨fuel, hfuel, hending⟩ := ih
    obtain ⟨fuel, rfl⟩ : ∃ k, fuel = k + 1 := ⟨fuel - 1, by omega⟩
    have hpeek := peek_of_hasToken hstart.reads.1
    have heof := @ne_eof_of_read lexer (by rw [hread]; exact nofun)
    have hline : readLine (lexerPeekToken lexer).2 = .ok read behind := by
      rw [hpeek]
      exact hread
    have hleft := readLine_ok_left heof hread
    rw [readLines_ok heof hline] at hending
    dsimp only at hending
    obtain ⟨k, rfl⟩ : ∃ k, fuel = k + 1 := ⟨fuel - 1, by omega⟩
    refine ⟨k + 1, ?_, ?_⟩
    · exact (peek_leads behind).left.trans_lt (by omega)
    · rw [← hending]
      exact congrArg Reading.ending (readLines_peek k behind)

/-- A text is refused if the parser comes to a line that it cannot read. -/
theorem refused_of_fail (stale : ℕ → Word → ℕ → Word) (output : CArray Word capacity)
    (h : LineStart input lexer) (hreads : Reads lexer line) (hfail : lineOf line = .fail) :
    (parserParse stale (parserInit input symbolTableInit output)).1 = false := by
  obtain ⟨fuel, hfuel, hending⟩ := h.ending
  obtain ⟨fuel, rfl⟩ : ∃ k, fuel = k + 1 := ⟨fuel - 1, by omega⟩
  have hmatch := line_matches hreads
  rw [hfail] at hmatch
  obtain ⟨message, behind, hread⟩ : ∃ message behind, readLine lexer = .fail message behind := by
    generalize readLine lexer = outcome at hmatch
    cases hmatch
    exact ⟨_, _, rfl⟩
  have heof := @ne_eof_of_read lexer (by rw [hread]; exact nofun)
  have hline : readLine (lexerPeekToken lexer).2 = .fail message behind := by
    rw [peek_of_hasToken h.reads.1]
    exact hread
  rw [readLines_fail heof hline] at hending
  rw [← Bool.not_eq_true, parserParse_iff, ← hending]
  exact fun haccepted => haccepted.1 rfl

/-- The definition works: the text is accepted, the parser comes to the line and reads the constant,
which is no instruction, so that it emits no word and moves no address, and every `MOV` of the name
into a register has the value as its immediate. -/
structure ConstantWorks (stale : ℕ → Word → ℕ → Word) (input : List Byte)
    (output : CArray Word capacity) (line : List Item) (name : CString 255) (v : Word) : Prop where
  accepted : (parserParse stale (parserInit input symbolTableInit output)).1 = true
  defined : ∃ lexer behind, LineStart input lexer ∧ Reads lexer line ∧
    readLine lexer = .ok (.constant name v (headLine line)) behind
  used : ∀ i r,
    (sourceInstructions input)[i]? = some ⟨.mov, [.register r, namedOperand name]⟩ →
      ∃ hc : i < capacity, decodeImmediate
        ((parserParse stale (parserInit input symbolTableInit output)).2.output ⟨i, hc⟩) = v

/-- No such definition works, and a text is refused if the parser comes to one. -/
theorem constant_never_works (stale : ℕ → Word → ℕ → Word) (input : List Byte)
    (output : CArray Word capacity) (before line : List Item) (name : CString 255) (v : Word)
    (h : EquLine input before line name v) : ¬ ConstantWorks stale input output line name v ∧
      ∀ lexer, LineStart input lexer → Reads lexer line →
        (parserParse stale (parserInit input symbolTableInit output)).1 = false := by
  have hrefused : ∀ lexer, LineStart input lexer → Reads lexer line →
      (parserParse stale (parserInit input symbolTableInit output)).1 = false :=
    fun lexer hstart hreads => refused_of_fail stale output hstart hreads h.lineOf_fail
  refine ⟨?_, hrefused⟩
  rintro ⟨haccepted, ⟨lexer, behind, hstart, hreads, -⟩, -⟩
  rw [hrefused lexer hstart hreads] at haccepted
  cases haccepted

/-- A constant of one line. -/
def equText : List Byte := bytes "K EQU 5\nMOV R1, K"

theorem equLine_equText :
    EquLine equText [] (textItems equText) (.ofBytes 255 (bytes "K")) 5#32 where
  tokens := rfl
  starts := by simp
  head := by decide
  equ := by decide
  value := by decide
  ends := by decide
  short := by decide
  small := by decide
  free := by decide
  once := by decide +kernel

theorem constant_never_works_equText :
    EquLine equText [] (textItems equText) (.ofBytes 255 (bytes "K")) 5#32 ∧
    ¬ ConstantWorks (fun _ _ _ => 0) equText (fun _ : Fin 1 => 0) (textItems equText)
      (.ofBytes 255 (bytes "K")) 5#32 ∧
    ∀ lexer, LineStart equText lexer → Reads lexer (textItems equText) →
      (parserParse (fun _ _ _ => 0) (parserInit equText symbolTableInit
        fun _ : Fin 1 => 0)).1 = false :=
  ⟨equLine_equText, constant_never_works _ _ _ _ _ _ _ equLine_equText⟩

/-- The text is refused: `K` is an unknown instruction. -/
theorem constant_refused : ¬ ∀ (capacity : ℕ) stale input (output : CArray Word capacity) before
    line name v, EquLine input before line name v →
      ConstantWorks stale input output line name v := by
  intro h
  have haccepted := (h 1 (fun _ _ _ => 0) equText (fun _ => 0) [] (textItems equText)
    (.ofBytes 255 (bytes "K")) 5#32 equLine_equText).accepted
  exact absurd haccepted (by decide)

end parser

end Dez.Assembler
