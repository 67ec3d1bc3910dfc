import Dez.Assembler.Concatenation
import Dez.Assembler.Entries
import Dez.DisasmTool.LabelScan

/-! The labels the disassembler's scan finds, and those of the assembler. -/
namespace Dez.DisasmTool
open Assembler

/-- The labels of a symbol table. -/
def labels (table : SymbolTable) : List Symbol :=
  table.symbols.filter fun symbol => symbol.type = .label

/-- The tool has the assembler's labels at four times their addresses, and no others. -/
def SameLabels (assembled tool : SymbolTable) : Prop :=
  (∀ s ∈ labels assembled, ∃ t ∈ tool.symbols, t.name = s.name ∧ t.address = 4#32 * s.address) ∧
    ∀ t ∈ tool.symbols, ∃ s ∈ labels assembled, s.name = t.name

instance (assembled tool : SymbolTable) : Decidable (SameLabels assembled tool) :=
  inferInstanceAs (Decidable (_ ∧ _))

/-- What counts in a line: a label by its name, an instruction as one more. -/
inductive Event
  | label (name : List Byte)
  | instruction
  deriving DecidableEq

/-- What counts in a line of the file, as the tool takes it. -/
def fileEvent (buffer : List Byte) : Option Event :=
  match fileLine buffer with
  | .skipped => none
  | .label name => some (.label name)
  | .instruction => some .instruction

/-- What counts in a line the parser reads. -/
def lineEvent : Line → Option Event
  | .label name _ => some (.label name.chars)
  | .instruction _ => some .instruction
  | .blank => none
  | .constant _ _ _ => none

/-- A line of the source by its tokens: the parser reads it to its end. Where a string goes on over
the end of a line of the file, the line of the source goes on too. -/
structure WholeLine (number : ℕ) (line : List Byte) : Prop where
  nul : 0#8 ∉ line
  known : Known (itemsFrom number line)
  one : ∀ item ∈ itemsFrom number line, item.lexeme.type ≠ .newline
  read : (linesOf (line.length + 1) (itemsFrom number line)).2 = .eof

/-- A text in which, up to the last label, the tool finds in the lines of the file that make up a
line of the source the labels and instructions that the parser reads in it. -/
inductive Aligned : ℕ → List Byte → Prop
  | behind {number : ℕ} {text : List Byte}
      (hassembler : ∀ line ∈ textLines number text, line.isLabel = false)
      (htool : ∀ line ∈ fileLines text, ∀ name, fileLine line ≠ .label name) : Aligned number text
  | last {number : ℕ} {text : List Byte} {buffers rest : List (List Byte)}
      (hone : ∀ item ∈ itemsFrom number text, item.lexeme.type ≠ .newline)
      (hbuffers : fileLines text = buffers ++ rest)
      (hevents : buffers.filterMap fileEvent = (textLines number text).filterMap lineEvent)
      (htool : ∀ line ∈ rest, ∀ name, fileLine line ≠ .label name) : Aligned number text
  | line {number : ℕ} {line rest : List Byte} (hwhole : WholeLine number line)
      (hevents : (fileLines (line ++ [newline])).filterMap fileEvent =
        (textLines number line).filterMap lineEvent)
      (hrest : Aligned (number + 1) rest) : Aligned number (line ++ newline :: rest)

/-- The constants of a text keep no label out of the symbol table. -/
def ConstantsAside (lines : List Line) : Prop :=
  ∀ before name number after, lines = before ++ .label name number :: after →
    (Enters (entered before) name ↔ Enters (entered (before.filter (!·.isConstant))) name)

/-- The lines of the file that are taken for the same by themselves: a comment from the first column
on, a label alone on its line, and an instruction alone on its line. -/
inductive ReadAlike (number : ℕ) : List Byte → Prop
  | comment {line : List Byte} (h : IsComment line) (hne : line ≠ []) : ReadAlike number line
  | label {indent name gap blanks comment : List Byte} (hindent : ∀ c ∈ indent, isBlank c = true)
      (hname : ∀ c ∈ name, lexerIsAlnum c = true) (hhead : lexerIsAlpha (name.headD 0#8) = true)
      (hregister : isRegisterToken name = false) (hgap : ∀ c ∈ gap, isBlank c = true)
      (hlength : (name ++ gap).length < 64) (hblanks : ∀ c ∈ blanks, isBlank c = true)
      (hcomment : IsComment comment) :
      ReadAlike number (indent ++ (name ++ (gap ++ ch ':' :: (blanks ++ comment))))
  | instruction {line : List Byte} {inst : ParsedInstruction} (hnul : 0#8 ∉ line)
      (hnewline : newline ∉ line)
      (h : lineOf (itemsFrom number line) = .ok (.instruction inst) []) : ReadAlike number line

/-- An entry of the assembler's table and one of the tool's for the same label. -/
structure SameLabel (s t : Symbol) : Prop where
  type : s.type = .label
  name : t.name = s.name
  address : t.address = 4#32 * s.address

/-- Both scans behind the same lines. -/
structure Alike (start : SymbolTable × Word) (scan : LabelScan) : Prop where
  address : scan.address = 4#32 * start.2
  symbols : List.Forall₂ SameLabel start.1.symbols scan.table.symbols

variable {number : ℕ} {line rest text name raw : List Byte} {start : SymbolTable × Word}
  {scan : LabelScan} {table tool : SymbolTable}

section lines

theorem trimString_newline (hne : line ≠ []) :
    trimString (line ++ [newline]) = trimString line := by
  cases line with
  | nil => exact absurd rfl hne
  | cons c line =>
    have hrun : ∀ d ∈ [newline], isTrimmed d = true := by decide
    exact congrArg (c :: ·) (rdropWhile_run hrun line)

theorem buffer_eq (hnul : 0#8 ∉ line) : line.takeWhile (· != 0#8) = line := by
  rw [List.takeWhile_eq_self_iff]
  intro c hc
  rw [bne_iff_ne]
  rintro rfl
  exact hnul hc

/-- The newline at the end of a line does not matter, if there is something before it. -/
theorem fileLine_newline (hnul : 0#8 ∉ line) (hne : line ≠ []) :
    fileLine (line ++ [newline]) = fileLine line := by
  have hnul' : 0#8 ∉ line ++ [newline] := by
    rw [List.mem_append]
    rintro (h | h)
    · exact hnul h
    · revert h
      decide
  unfold fileLine
  rw [buffer_eq hnul, buffer_eq hnul', trimString_newline hne]

theorem fileLine_comment (h : IsComment line) (hne : line ≠ []) : fileLine line = .skipped := by
  unfold fileLine
  rw [buffer_eq h.1]
  cases line with
  | nil => exact absurd rfl hne
  | cons c line => exact if_pos (.inr h.2.2)

variable {indent gap blanks comment : List Byte} (hindent : ∀ c ∈ indent, isBlank c = true)
  (hname : ∀ c ∈ name, lexerIsAlnum c = true) (hhead : lexerIsAlpha (name.headD 0#8) = true)
  (hregister : isRegisterToken name = false) (hgap : ∀ c ∈ gap, isBlank c = true)
  (hlength : (name ++ gap).length < 64) (hblanks : ∀ c ∈ blanks, isBlank c = true)
  (hcomment : IsComment comment)

/-- What is left of the blanks and the comment behind a colon. -/
theorem behind_trimmed (hblanks : ∀ c ∈ blanks, isBlank c = true) (hcomment : IsComment comment) :
    (blanks ++ comment).rdropWhile isTrimmed = [] ∨
      (((blanks ++ comment).rdropWhile isTrimmed).dropWhile isBlank).headD 0#8 = ch ';' := by
  have htrimmed : ∀ c ∈ blanks, isTrimmed c = true := by
    intro c hc
    rcases blank_cases (hblanks c hc) with rfl | rfl <;> rfl
  cases comment with
  | nil =>
    left
    rw [List.append_nil, List.rdropWhile_eq_nil_iff]
    exact htrimmed
  | cons c comment =>
    right
    obtain rfl : c = ch ';' := hcomment.2.2
    rw [rdropWhile_stop (by decide), List.dropWhile_append_of_pos hblanks,
      List.dropWhile_cons_of_neg (by decide)]
    rfl

include hindent hname hgap hblanks hcomment

theorem plain_label :
    0#8 ∉ indent ++ (name ++ (gap ++ ch ':' :: (blanks ++ comment))) ∧
      newline ∉ indent ++ (name ++ (gap ++ ch ':' :: (blanks ++ comment))) := by
  have hplain : ∀ d : Byte, isBlank d = false → lexerIsAlnum d = false → d ≠ ch ':' →
      d ∉ comment → d ∉ indent ++ (name ++ (gap ++ ch ':' :: (blanks ++ comment))) := by
    intro d hblank halnum hcolon hd hmem
    simp only [List.mem_append, List.mem_cons] at hmem
    rcases hmem with h | h | h | rfl | h | h
    · rw [hindent d h] at hblank
      cases hblank
    · rw [hname d h] at halnum
      cases halnum
    · rw [hgap d h] at hblank
      cases hblank
    · exact hcolon rfl
    · rw [hblanks d h] at hblank
      cases hblank
    · exact hd h
  exact ⟨hplain _ rfl rfl (by decide) hcomment.1, hplain _ rfl rfl (by decide) hcomment.2.1⟩

include hhead hlength

theorem fileLine_label :
    fileLine (indent ++ (name ++ (gap ++ ch ':' :: (blanks ++ comment)))) = .label name := by
  have hne : name ≠ [] := by
    rintro rfl
    cases hhead
  have htrim : trimString (indent ++ (name ++ (gap ++ ch ':' :: (blanks ++ comment)))) =
      indent ++ (name ++ (gap ++ ch ':' :: (blanks ++ comment).rdropWhile isTrimmed)) := by
    have hfront : indent ++ (name ++ gap) ≠ [] := by
      intro h
      exact hne (List.append_eq_nil_iff.mp (List.append_eq_nil_iff.mp h).2).1
    have hstop := @trimEnd_stop (indent ++ (name ++ gap)) isTrimmed (ch ':') rfl hfront
      (blanks ++ comment)
    rw [List.append_assoc, List.append_assoc, List.append_assoc, List.append_assoc] at hstop
    exact hstop
  have hfirst : (indent ++ (name ++ (gap ++ ch ':' ::
      (blanks ++ comment).rdropWhile isTrimmed))).headD 0#8 ≠ ch ';' := by
    cases indent with
    | nil =>
      cases name with
      | nil => exact absurd rfl hne
      | cons c name =>
        rintro (rfl : c = ch ';')
        cases hname _ (List.mem_cons_self ..)
    | cons c indent =>
      rintro (rfl : c = ch ';')
      cases hindent _ (List.mem_cons_self ..)
  unfold fileLine
  rw [buffer_eq (plain_label hindent hname hgap hblanks hcomment).1, htrim]
  dsimp only
  rw [if_neg (not_or.mpr ⟨by simp, hfirst⟩), extract_label hindent hne hname hgap hlength
    (behind_trimmed hblanks hcomment)]

omit hindent hname hhead hgap hlength hblanks hcomment in
/-- An instruction alone on its line is counted as one. -/
theorem fileLine_instruction {inst : ParsedInstruction} (hnul : 0#8 ∉ line)
    (hnewline : newline ∉ line) (h : lineOf (itemsFrom number line) = .ok (.instruction inst) []) :
    fileLine line = .instruction ∧ line ≠ [] := by
  have htype := (readsInstruction_iff.mp h).type
  rw [headLexeme_itemsFrom] at htype
  have hcomment : ¬ IsComment line := by
    intro hcomment
    rw [skipBlanks_comment hcomment] at htype
    cases htype
  cases line with
  | nil => exact absurd ⟨hnul, hnewline, rfl⟩ hcomment
  | cons c line =>
    refine ⟨?_, List.cons_ne_nil _ _⟩
    have hfirst : c ≠ ch ';' := fun hc => hcomment ⟨hnul, hnewline, hc⟩
    unfold fileLine
    rw [buffer_eq hnul]
    dsimp only
    have hkept : ¬ ((trimString (c :: line)).length = 0 ∨
        (trimString (c :: line)).headD 0#8 = ch ';') :=
      not_or.mpr ⟨Nat.succ_ne_zero _, hfirst⟩
    rw [if_neg hkept]
    cases hlabel : extractLabelFromLine (trimString (c :: line)) 64 with
    | none => rfl
    | some name =>
      exfalso
      obtain ⟨indent, gap, behind, hshape, hindent, hgap, hne, hname, hlength⟩ :=
        extract_shape hlabel
      obtain ⟨cut, hcut, -⟩ := @trimEnd_append isTrimmed (c :: line)
      rw [trimString] at hshape
      rw [hshape, List.append_assoc, List.append_assoc, List.append_assoc] at hcut
      rw [hcut] at h
      exact not_instruction_of_colon (fun c hc => white_of_blank (blank_cases (hindent c hc))) hne
        hname (by omega) (fun c hc => white_of_blank (blank_cases (hgap c hc))) h

end lines

section whole

theorem fileLines_append (a b : List Byte) :
    fileLines (a ++ newline :: b) = fileLines (a ++ [newline]) ++ fileLines b := by
  have hcut : ∀ (room : ℕ) (a b : List Byte), ∃ front behind,
      (fgets (room + 1) (a ++ newline :: b) = (front, behind ++ newline :: b) ∧
          fgets (room + 1) (a ++ [newline]) = (front, behind ++ [newline]) ∧
          behind.length < a.length) ∨
        fgets (room + 1) (a ++ newline :: b) = (front, b) ∧
          fgets (room + 1) (a ++ [newline]) = (front, []) := by
    intro room a b
    induction a generalizing room with
    | nil => exact ⟨[newline], [], .inr ⟨rfl, rfl⟩⟩
    | cons c a ih =>
      simp only [List.cons_append, fgets]
      split
      · exact ⟨[c], a, .inl ⟨rfl, rfl, Nat.lt_succ_self _⟩⟩
      · cases room with
        | zero => exact ⟨[c], a, .inl ⟨rfl, rfl, Nat.lt_succ_self _⟩⟩
        | succ room =>
          obtain ⟨front, behind, ⟨hmore, hend, hlt⟩ | ⟨hmore, hend⟩⟩ := ih room
          · rw [hmore, hend]
            exact ⟨c :: front, behind, .inl ⟨rfl, rfl, Nat.lt_succ_of_lt hlt⟩⟩
          · rw [hmore, hend]
            exact ⟨c :: front, behind, .inr ⟨rfl, rfl⟩⟩
  induction hn : a.length using Nat.strong_induction_on generalizing a with
  | _ n ih =>
    have hne : ∀ rest : List Byte, a ++ newline :: rest ≠ [] := fun rest =>
      List.append_ne_nil_of_right_ne_nil a (List.cons_ne_nil newline rest)
    rw [fileLines_eq (hne b), fileLines_eq (hne [])]
    obtain ⟨front, behind, ⟨hmore, hend, hlt⟩ | ⟨hmore, hend⟩⟩ := hcut 1022 a b
    · rw [hmore, hend, List.cons_append, ih _ (hn ▸ hlt) behind rfl]
    · rw [hmore, hend]
      rfl

/-- A line of the source is read on its own. -/
theorem WholeLine.next (h : WholeLine number line) (rest : List Byte) :
    textLines number (line ++ newline :: rest) =
      textLines number line ++ .blank :: textLines (number + 1) rest := by
  have hcount : newlinesIn (itemsFrom number line) = 0 := by
    rw [newlinesIn, List.countP_eq_zero]
    exact fun item hitem => by simpa using h.one item hitem
  have hitems := @itemsFrom_append line number h.nul h.known rest
  rw [hcount, Nat.add_zero] at hitems
  have hlength := length_itemsFrom_le number line
  have hshort := length_linesOf_le (line.length + 1) (itemsFrom number line)
  obtain ⟨k, hk⟩ : ∃ k, (line ++ newline :: rest).length + 1 =
      (linesOf (line.length + 1) (itemsFrom number line)).1.length + 1 + k :=
    ⟨(line ++ newline :: rest).length -
      (linesOf (line.length + 1) (itemsFrom number line)).1.length,
      by
        rw [List.length_append]
        omega⟩
  have hmore : rest.length < k := by
    rw [List.length_append, List.length_cons] at hk
    omega
  let stop : Item := ⟨signLexeme .newline newline, number, colonEnds rest⟩
  have hread := @linesOf_append (itemsFrom number line) stop _ rfl (itemsFrom_ne_eof number line)
    (Nat.lt_succ_of_le hlength) h.read k (itemsFrom (number + 1) rest)
  rw [textLines, hitems, hk, hread, linesOf_fuel hmore]
  rfl

theorem no_newline {text : List Byte} (h : newline ∉ text) :
    ∀ item ∈ itemsFrom number text, item.lexeme.type ≠ .newline := by
  induction hn : text.length using Nat.strong_induction_on generalizing text with
  | _ n ih =>
    rw [itemsFrom_eq]
    dsimp only
    split
    · exact fun item hitem => absurd hitem List.not_mem_nil
    · rename_i heof
      have hskipped := skipBlanks_suffix text
      have hrest := (List.drop_suffix (scanToken (skipBlanks text)).length _).trans hskipped
      have hfirst : (scanToken (skipBlanks text)).type ≠ .newline := by
        intro hnewline
        cases hs : skipBlanks text with
        | nil =>
          rw [hs] at hnewline
          cases hnewline
        | cons c rest =>
          rw [hs] at hnewline hskipped
          exact h ((scanToken_at c rest).newline hnewline ▸ hskipped.subset (List.mem_cons_self ..))
      rw [if_neg hfirst]
      refine List.forall_mem_cons.mpr ⟨hfirst, ?_⟩
      exact ih _ (hn ▸ length_behind heof) (fun hmem => h (hrest.subset hmem)) rfl

theorem ending_nil (fuel : ℕ) : (linesOf fuel []).2 = .eof := by
  cases fuel <;> rfl

/-- A line that is taken for the same by itself is one line of the source, and judged alike. -/
theorem ReadAlike.judged (h : ReadAlike number line) (hlength : line.length < 1023) :
    WholeLine number line ∧ (fileLines (line ++ [newline])).filterMap fileEvent =
      (textLines number line).filterMap lineEvent := by
  have hone : newline ∉ line → line ≠ [] → 0#8 ∉ line →
      (fileLines (line ++ [newline])).filterMap fileEvent = (fileEvent line).toList := by
    intro hnewline hne hnul
    have hsame : fileEvent (line ++ [newline]) = fileEvent line := by
      rw [fileEvent, fileLine_newline hnul hne]
      rfl
    rw [fileLines_line hnewline hlength, List.filterMap_cons, hsame]
    cases fileEvent line <;> rfl
  cases h with
  | comment h hne =>
    have hitems : itemsFrom number line = [] :=
      @itemsFrom_comment [] line number (List.forall_mem_nil _) h
    refine ⟨⟨h.1, ?_, ?_, hitems ▸ rfl⟩, ?_⟩
    · rw [hitems]
      exact List.forall_mem_nil _
    · rw [hitems]
      exact List.forall_mem_nil _
    · rw [hone h.2.1 hne h.1, (textLines_comment number h).1, fileEvent, fileLine_comment h hne]
      rfl
  | @label indent name gap blanks comment hindent hname hhead hregister hgap hshort hblanks
      hcomment =>
    have hwhite : ∀ {blanks : List Byte}, (∀ c ∈ blanks, isBlank c = true) →
        ∀ c ∈ blanks, lexerIsWhitespace c = true :=
      fun h c hc => white_of_blank (blank_cases (h c hc))
    have hfits : name.length ≤ 255 := by
      rw [List.length_append] at hshort
      omega
    have hplain := plain_label hindent hname hgap hblanks hcomment
    have hblank : ∀ c ∈ blanks, c = 0x20#8 ∨ c = 0x09#8 := fun c hc => blank_cases (hblanks c hc)
    have hitems := itemsFrom_label (hwhite hindent) hname hhead hfits (hwhite hgap) hblank hcomment
      number
    have hread := lineOf_labelLine (hwhite hindent) hname hhead hregister hfits (hwhite hgap) hblank
      hcomment number [] (.inr rfl)
    have hlines := (textLines_label (hwhite hindent) hname hhead hregister hfits (hwhite hgap)
      hblank hcomment number hplain).1
    have hidentifier : (nameLexeme name).type = .identifier := by
      rw [nameLexeme, hregister]
      rfl
    refine ⟨⟨hplain.1, ?_, ?_, ?_⟩, ?_⟩
    · rw [hitems]
      exact known_cons (hidentifier ▸ TokenType.noConfusion)
        (known_cons TokenType.noConfusion (List.forall_mem_nil _))
    · rw [hitems]
      exact List.forall_mem_cons.mpr ⟨hidentifier ▸ TokenType.noConfusion,
        List.forall_mem_singleton.mpr TokenType.noConfusion⟩
    · rw [List.append_nil] at hread
      rw [linesOf_ok (lineOf_ne_eof hread) hread, ending_nil]
    · have hnul : 0#8 ∉ name := fun hc => by cases hname _ hc
      rw [hone hplain.2 (by simp) hplain.1, hlines, fileEvent,
        fileLine_label hindent hname hhead hgap hshort hblanks hcomment]
      simp [lineEvent, CString.chars_ofBytes hnul, List.take_of_length_le hfits]
  | @instruction _ inst hnul hnewline h =>
    obtain ⟨hline, hne⟩ := fileLine_instruction hnul hnewline h
    obtain ⟨used, hused, htakes⟩ := lineOf_takes h
    rw [List.append_nil] at hused
    refine ⟨⟨hnul, hused ▸ htakes.known, no_newline hnewline, ?_⟩, ?_⟩
    · rw [linesOf_ok (lineOf_ne_eof h) h, ending_nil]
    · rw [hone hnewline hne hnul, (textLines_instruction hnul hnewline h).1, fileEvent, hline]
      rfl

end whole

section step

theorem names_eq {symbols symbols' : List Symbol} (h : List.Forall₂ SameLabel symbols symbols') :
    symbols'.map Symbol.name = symbols.map Symbol.name := by
  induction h with
  | nil => rfl
  | cons hsame _ ih => exact congrArg₂ List.cons hsame.name ih

/-- Both tables take the same names. -/
theorem Alike.takes (h : Alike start scan) : start.1.Takes raw ↔ scan.table.Takes raw := by
  have hnames : ∀ symbols : List Symbol, (∀ s ∈ symbols, s.name.chars ≠ raw) ↔
      ∀ name ∈ symbols.map Symbol.name, name.chars ≠ raw := by
    intro symbols
    rw [List.forall_mem_map]
  unfold SymbolTable.Takes
  rw [h.symbols.length_eq, hnames, hnames, names_eq h.symbols]

/-- A line in which nothing counts, for the parser. -/
theorem Alike.blank (h : Alike start scan) {read : Line} (hread : lineEvent read = none)
    (hconstant : read.isConstant = false) : Alike (defineLine start read) scan := by
  cases read with
  | blank => exact h
  | constant name value number => cases hconstant
  | label name number => cases hread
  | instruction inst => cases hread

theorem Alike.skipped (h : Alike start scan) (hline : fileEvent line = none) :
    Alike start (scanLine scan line) := by
  unfold fileEvent at hline
  unfold scanLine
  cases hfile : fileLine line with
  | skipped => exact ⟨h.address, h.symbols⟩
  | label name =>
    rw [hfile] at hline
    cases hline
  | instruction =>
    rw [hfile] at hline
    cases hline

/-- A label both find gets its entry in both tables, or in neither; an instruction moves both on. -/
theorem Alike.event (h : Alike start scan) {read : Line} {event : Event}
    (hread : lineEvent read = some event) (hline : fileEvent line = some event) :
    Alike (defineLine start read) (scanLine scan line) := by
  unfold fileEvent at hline
  unfold scanLine
  cases read with
  | blank => cases hread
  | constant name value number => cases hread
  | instruction inst =>
    cases hread
    cases hfile : fileLine line with
    | skipped =>
      rw [hfile] at hline
      cases hline
    | label name =>
      rw [hfile] at hline
      cases hline
    | instruction =>
      refine ⟨?_, h.symbols⟩
      calc scan.address + 4#32
          = 4#32 * start.2 + 4#32 := by rw [h.address]
        _ = 4#32 * (start.2 + 1#32) := by rw [BitVec.mul_add, BitVec.mul_one]
  | label name number =>
    cases hread
    cases hfile : fileLine line with
    | skipped =>
      rw [hfile] at hline
      cases hline
    | instruction =>
      rw [hfile] at hline
      cases hline
    | label raw =>
      rw [hfile] at hline
      obtain rfl : raw = name.chars := by
        injection hline with hevent
        injection hevent
      refine ⟨h.address, ?_⟩
      dsimp only [defineLine, symbolTableDefine]
      by_cases htakes : start.1.Takes name.chars
      · rw [symbols_add_of_takes htakes, symbols_add_of_takes (h.takes.mp htakes)]
        exact List.rel_append h.symbols (.cons ⟨rfl, rfl, h.address⟩ .nil)
      · rw [symbols_add_of_not_takes htakes, symbols_add_of_not_takes (mt h.takes.mpr htakes)]
        exact h.symbols

theorem Alike.skip (h : Alike start scan) {buffers : List (List Byte)}
    (hskipped : ∀ line ∈ buffers, fileEvent line = none) :
    Alike start (buffers.foldl scanLine scan) := by
  induction buffers generalizing scan with
  | nil => exact h
  | cons buffer buffers ih =>
    obtain ⟨hline, hlines⟩ := List.forall_mem_cons.mp hskipped
    exact ih (h.skipped hline) hlines

/-- Lines in which the same labels and instructions are found keep the scans alike. -/
theorem Alike.lines (h : Alike start scan) {buffers : List (List Byte)} {lines : List Line}
    (hevents : buffers.filterMap fileEvent = lines.filterMap lineEvent) :
    Alike (defineLines start (lines.filter (!·.isConstant))) (buffers.foldl scanLine scan) := by
  induction lines generalizing start scan buffers with
  | nil => exact h.skip (List.filterMap_eq_nil_iff.mp hevents)
  | cons read lines ih =>
    cases hread : lineEvent read with
    | none =>
      rw [List.filterMap_cons_none hread] at hevents
      cases hconstant : read.isConstant with
      | true =>
        rw [List.filter_cons_of_neg (by rw [hconstant]; exact Bool.false_ne_true)]
        exact ih h hevents
      | false =>
        rw [List.filter_cons_of_pos (by rw [hconstant]; rfl)]
        exact ih (h.blank hread hconstant) hevents
    | some event =>
      have hconstant : read.isConstant = false := by
        cases read with
        | constant name value number => cases hread
        | _ => rfl
      rw [List.filterMap_cons_some hread] at hevents
      obtain ⟨skipped, buffer, rest, rfl, hskipped, hbuffer, hrest⟩ :=
        List.filterMap_eq_cons_iff.mp hevents
      rw [List.filter_cons_of_pos (by rw [hconstant]; rfl), List.foldl_append]
      exact ih ((h.skip hskipped).event hread hbuffer) hrest

end step

section behind

theorem labels_defineLine {line : Line} (h : line.isLabel = false) :
    labels (defineLine start line).1 = labels start.1 := by
  cases line with
  | blank => rfl
  | instruction inst => rfl
  | label name number => cases h
  | constant name value number =>
    unfold labels
    dsimp only [defineLine, symbolTableDefineConstant]
    rcases @symbols_add start.1 name.chars .constant value value none number with hs | ⟨-, hs⟩
    · rw [hs]
    · rw [hs, List.filter_append]
      exact List.append_nil _

theorem labels_defineLines {lines : List Line} (h : ∀ line ∈ lines, line.isLabel = false) :
    labels (defineLines start lines).1 = labels start.1 := by
  induction lines generalizing start with
  | nil => rfl
  | cons line lines ih =>
    obtain ⟨hline, hlines⟩ := List.forall_mem_cons.mp h
    exact (ih hlines).trans (labels_defineLine hline)

/-- The strings of the second pass are no labels. -/
theorem labels_encodeAll {stale : Word → ℕ → Word} {address : Word}
    (insts : List ParsedInstruction) :
    labels (encodeAll stale address table insts).2 = labels table := by
  induction insts generalizing table address with
  | nil => rfl
  | cons inst insts ih =>
    refine ih.trans ?_
    unfold labels
    rw [(encode_table _ table inst).1]
    cases inst.literal with
    | none => rfl
    | some text =>
      dsimp only [Option.elim, defineLiteral, symbolTableDefineString]
      rcases @symbols_add (symbolTableAllocateString table text.chars).2 (stringKey text).chars
        .string (symbolTableAllocateString table text.chars).1 0 (some text.chars) 0 with
        hs | ⟨-, hs⟩
      · rw [hs]
        rfl
      · rw [hs, List.filter_append]
        exact List.append_nil _

theorem scan_unlabelled {buffers : List (List Byte)}
    (h : ∀ line ∈ buffers, ∀ name, fileLine line ≠ .label name) :
    (buffers.foldl scanLine scan).table = scan.table := by
  induction buffers generalizing scan with
  | nil => rfl
  | cons buffer buffers ih =>
    obtain ⟨hline, hlines⟩ := List.forall_mem_cons.mp h
    refine (ih hlines).trans ?_
    unfold scanLine
    cases hl : fileLine buffer with
    | label name => exact absurd hl (hline name)
    | _ => rfl

theorem constantsAside_of_none {lines : List Line}
    (h : ∀ line ∈ lines, line.isConstant = false) : ConstantsAside lines := by
  rintro before name number after rfl
  have hkept : before.filter (!·.isConstant) = before :=
    List.filter_eq_self.mpr fun line hline => by
      rw [h line (List.mem_append_left _ hline)]
      rfl
  rw [hkept]

/-- Constants are no labels, and keep none out. -/
theorem labels_constantsAside {lines : List Line} (h : ConstantsAside lines) :
    labels (tableBehind lines) = labels (tableBehind (lines.filter (!·.isConstant))) := by
  have hboth : labels (tableBehind lines) =
        labels (tableBehind (lines.filter (!·.isConstant))) ∧
      (defineLines (symbolTableInit, 0#32) lines).2 =
        (defineLines (symbolTableInit, 0#32) (lines.filter (!·.isConstant))).2 := by
    induction lines using List.reverseRecOn with
    | nil => exact ⟨rfl, rfl⟩
    | append_singleton lines line ih =>
      have hfront : ConstantsAside lines := by
        rintro before name number after rfl
        exact h before name number (after ++ [line]) (by simp)
      obtain ⟨hlabels, haddress⟩ := ih hfront
      rw [List.filter_append, tableBehind_append, defineLines_append]
      cases line with
      | blank =>
        rw [List.filter_cons_of_pos rfl, List.filter_nil, tableBehind_append, defineLines_append]
        exact ⟨hlabels, haddress⟩
      | constant name value number =>
        rw [List.filter_cons_of_neg (by exact Bool.false_ne_true), List.filter_nil, List.append_nil]
        exact ⟨(labels_defineLine rfl).trans hlabels, haddress⟩
      | instruction inst =>
        rw [List.filter_cons_of_pos rfl, List.filter_nil, tableBehind_append, defineLines_append]
        exact ⟨hlabels, congrArg (· + 1#32) haddress⟩
      | label name number =>
        rw [List.filter_cons_of_pos rfl, List.filter_nil, tableBehind_append, defineLines_append]
        refine ⟨?_, haddress⟩
        have hsame := h lines name number [] rfl
        rw [← (has_entered lines).takes_iff, ← (has_entered _).takes_iff] at hsame
        unfold labels at hlabels ⊢
        dsimp only [defineLine, symbolTableDefine]
        rw [haddress]
        by_cases htakes : (tableBehind lines).Takes name.chars
        · have hfirst := @symbols_add_of_takes _ _ .label
            (defineLines (symbolTableInit, 0#32) (lines.filter (!·.isConstant))).2 0 none number
            htakes
          have hsecond := @symbols_add_of_takes _ _ .label
            (defineLines (symbolTableInit, 0#32) (lines.filter (!·.isConstant))).2 0 none number
            (hsame.mp htakes)
          rw [tableBehind] at hfirst hsecond
          rw [hfirst, hsecond, List.filter_append, List.filter_append]
          exact congrArg (· ++ _) hlabels
        · have hfirst := @symbols_add_of_not_takes _ _ .label
            (defineLines (symbolTableInit, 0#32) (lines.filter (!·.isConstant))).2 0 none number
            htakes
          have hsecond := @symbols_add_of_not_takes _ _ .label
            (defineLines (symbolTableInit, 0#32) (lines.filter (!·.isConstant))).2 0 none number
            (mt hsame.mpr htakes)
          rw [tableBehind] at hfirst hsecond
          rw [hfirst, hsecond]
          exact hlabels
  exact hboth.1

end behind

/-- Alike, the scans have the same labels. -/
theorem Alike.labels (h : Alike start scan) :
    List.Forall₂ SameLabel (labels start.1) scan.table.symbols := by
  have hlabels : ∀ {symbols symbols' : List Symbol}, List.Forall₂ SameLabel symbols symbols' →
      symbols.filter (fun symbol => symbol.type = .label) = symbols := by
    intro symbols symbols' hsame
    induction hsame with
    | nil => rfl
    | cons hsame _ ih => rw [List.filter_cons_of_pos (by simpa using hsame.type), ih]
  unfold DisasmTool.labels
  rw [hlabels h.symbols]
  exact h.symbols

/-- Both scans over an aligned text, constants aside. -/
theorem aligned_run (h : Aligned number text) (ha : Alike start scan) :
    List.Forall₂ SameLabel
      (labels (defineLines start ((textLines number text).filter (!·.isConstant))).1)
      ((fileLines text).foldl scanLine scan).table.symbols := by
  induction h generalizing start scan with
  | behind hassembler htool =>
    rw [labels_defineLines fun line hline => hassembler line (List.mem_of_mem_filter hline),
      scan_unlabelled htool]
    exact ha.labels
  | last hone hbuffers hevents htool =>
    rw [hbuffers, List.foldl_append, scan_unlabelled htool]
    exact (ha.lines hevents).labels
  | @line number line rest hwhole hevents hrest ih =>
    rw [hwhole.next, List.filter_append, defineLines_append, fileLines_append, List.foldl_append]
    exact ih (ha.lines hevents)

theorem sameLabels_of_forall₂ {symbols symbols' : List Symbol}
    (h : List.Forall₂ SameLabel symbols symbols') :
    (∀ s ∈ symbols, ∃ t ∈ symbols', t.name = s.name ∧ t.address = 4#32 * s.address) ∧
      ∀ t ∈ symbols', ∃ s ∈ symbols, s.name = t.name := by
  induction h with
  | nil => exact ⟨nofun, nofun⟩
  | @cons s t symbols symbols' hsame _ ih =>
    obtain ⟨hleft, hright⟩ := ih
    constructor
    · intro s' hs
      rcases List.mem_cons.mp hs with rfl | hs
      · exact ⟨t, List.mem_cons_self .., hsame.name, hsame.address⟩
      · obtain ⟨t', ht, hname⟩ := hleft s' hs
        exact ⟨t', List.mem_cons_of_mem _ ht, hname⟩
    · intro t' ht
      rcases List.mem_cons.mp ht with rfl | ht
      · exact ⟨s, List.mem_cons_self .., hsame.name.symm⟩
      · obtain ⟨s', hs, hname⟩ := hright t' ht
        exact ⟨s', List.mem_cons_of_mem _ hs, hname⟩

/-- The scan finds the labels of an accepted text, at four times the assembler's addresses, and no
others, if up to the last label it takes every line for what the parser reads in it, and no constant
keeps a label out of the assembler's table. -/
theorem labels_agree {capacity : ℕ} (stale : ℕ → Word → ℕ → Word) (input : List Byte)
    (output : CArray Word capacity)
    (h : (parserParse stale (parserInit input symbolTableInit output)).1 = true)
    (haligned : Aligned 1 input) (hconstants : ConstantsAside (readSource input).lines) :
    ∃ tool printed, parseAssemblyFile (some input) = some (tool, printed) ∧
      SameLabels (parserParse stale (parserInit input symbolTableInit output)).2.symbolTable
        tool := by
  obtain ⟨-, htable, -, -⟩ := parserParse_eq h
  refine ⟨_, _, rfl, ?_⟩
  have hstart : Alike (symbolTableInit, 0#32) ⟨symbolTableInit, 0#32, 0, []⟩ := ⟨rfl, .nil⟩
  have hrun := aligned_run haligned hstart
  have hlabels : labels (sourceTable symbolTableInit input) =
      labels (tableBehind ((readSource input).lines.filter (!·.isConstant))) :=
    labels_constantsAside hconstants
  rw [htable]
  unfold SameLabels sourceWords
  rw [labels_encodeAll, hlabels, source_textLines]
  exact sameLabels_of_forall₂ hrun

/-- A string over two lines of the file, and an indented label behind a comment. -/
def stringOverLines : List Byte := bytes "; x\nMOV R0, \"a\n;b\"\n A : ; y\n\n"

theorem labels_agree_stringOverLines :
    ∃ tool printed, parseAssemblyFile (some stringOverLines) = some (tool, printed) ∧
      SameLabels (parserParse (fun _ _ _ => 0) (parserInit stringOverLines
        symbolTableInit fun _ : Fin 1 => 0)).2.symbolTable tool := by
  have htext : stringOverLines = bytes "; x" ++ newline :: (bytes "MOV R0, \"a\n;b\"" ++
      newline :: (bytes " " ++ (bytes "A" ++ (bytes " " ++ ch ':' :: (bytes " " ++ bytes "; y"))) ++
        newline :: bytes "\n")) := rfl
  have haligned : Aligned 1 stringOverLines := by
    rw [htext]
    have hcomment := @ReadAlike.judged 1 (bytes "; x")
      (.comment ⟨by decide, by decide, rfl⟩ (by decide)) (by decide)
    refine .line hcomment.1 hcomment.2 ?_
    refine .line ⟨by decide, by unfold Known; decide, by decide, by decide⟩ (by decide) ?_
    have hlabel := @ReadAlike.judged 3 _ (@ReadAlike.label 3 (bytes " ") (bytes "A") (bytes " ")
      (bytes " ") (bytes "; y") (by decide) (by decide) rfl rfl (by decide) (by decide) (by decide)
      ⟨by decide, by decide, rfl⟩) (by decide)
    refine .line hlabel.1 hlabel.2 ?_
    exact .behind (by decide) fun line hline name => by
      obtain rfl := List.mem_singleton.mp hline
      exact nofun
  have hconstants : ConstantsAside (readSource stringOverLines).lines :=
    constantsAside_of_none (by decide +kernel)
  exact labels_agree (fun _ _ _ => 0) _ _ (by decide) haligned hconstants

/-- An empty line in front of a label moves it. -/
theorem empty_line_counted :
    ¬ ∀ capacity stale input (output : CArray Word capacity),
      (parserParse stale (parserInit input symbolTableInit output)).1 = true →
        (∀ line ∈ input.splitOn newline, line.length < 1023) →
        ∃ tool printed, parseAssemblyFile (some input) = some (tool, printed) ∧
          SameLabels (parserParse stale (parserInit input symbolTableInit output)).2.symbolTable
            tool := by
  intro h
  have hsame := h 1 (fun _ _ _ => 0) (bytes "\nA:\nHALT") (fun _ => 0) (by decide)
    (by decide)
  obtain ⟨tool, printed, htool, hlabels⟩ := hsame
  obtain ⟨rfl, -⟩ := Prod.mk.inj (Option.some_inj.mp htool)
  exact absurd hlabels (by decide)

/-- A line too many and one too few come out even. -/
example :
    let assembled := parserParse (fun _ _ _ => 0) (parserInit (bytes "\nHALT HALT\nA:\n")
      symbolTableInit fun _ : Fin 2 => 0)
    ∃ tool printed, parseAssemblyFile (some (bytes "\nHALT HALT\nA:\n")) = some (tool, printed) ∧
      assembled.1 = true ∧ SameLabels assembled.2.symbolTable tool :=
  ⟨_, _, rfl, by decide⟩

end Dez.DisasmTool
