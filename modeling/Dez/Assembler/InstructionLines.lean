import Dez.Assembler.Lines
import Dez.Assembler.Literals
import Dez.Assembler.Determinism

/-! A text of instruction lines and nothing else. -/
namespace Dez.Assembler

variable {text : List Byte} {lexemes : List Lexeme} {items : List Item} {α β : Type}

section number

/-- A token in another line. -/
def Item.inLine (number : ℕ) (item : Item) : Item := { item with line := number }

def Parse.inLine (number : ℕ) : Parse α → Parse α
  | .ok value rest => .ok value (rest.map (Item.inLine number))
  | .stuck => .stuck
  | .fail => .fail

variable (number : ℕ)

@[simp] theorem headLexeme_inLine (items : List Item) :
    headLexeme (items.map (Item.inLine number)) = headLexeme items := by
  cases items <;> rfl

@[simp] theorem headColon_inLine (items : List Item) :
    headColon (items.map (Item.inLine number)) = headColon items := by
  cases items <;> rfl

theorem bind_inLine (parse : Parse α) {f : α → List Item → Parse β}
    (h : ∀ a items, f a (items.map (Item.inLine number)) = (f a items).inLine number) :
    (parse.inLine number).bind f = (parse.bind f).inLine number := by
  cases parse with
  | ok a rest => exact h a rest
  | stuck => rfl
  | fail => rfl

theorem memoryOperandOf_inLine (items : List Item) :
    memoryOperandOf (items.map (Item.inLine number)) = (memoryOperandOf items).inLine number := by
  unfold memoryOperandOf
  simp only [← List.map_tail, headLexeme_inLine]
  split
  · rfl
  · split <;> rfl

theorem operandOf_inLine (items : List Item) :
    operandOf (items.map (Item.inLine number)) = (operandOf items).inLine number := by
  unfold operandOf
  simp only [← List.map_tail, headLexeme_inLine, memoryOperandOf_inLine]
  split
  · rfl
  · rfl
  · rfl
  · split <;> rfl
  · rfl
  · rfl
  · rfl

theorem operandsOf_inLine (i n : ℕ) (items : List Item) :
    operandsOf i n (items.map (Item.inLine number)) = (operandsOf i n items).inLine number := by
  induction n generalizing i items with
  | zero => rfl
  | succ n ih =>
    have hstart : (if 0 < i then (items.map (Item.inLine number)).tail
          else items.map (Item.inLine number)) =
        (if 0 < i then items.tail else items).map (Item.inLine number) := by
      split
      · exact List.map_tail.symm
      · rfl
    unfold operandsOf
    rw [headLexeme_inLine, hstart, operandOf_inLine]
    split
    · rfl
    · refine bind_inLine number _ fun operand rest => ?_
      rw [ih]
      exact bind_inLine number _ fun operands rest => rfl

theorem instructionOf_inLine (items : List Item) :
    instructionOf (items.map (Item.inLine number)) = (instructionOf items).inLine number := by
  unfold instructionOf
  simp only [← List.map_tail, headLexeme_inLine, operandsOf_inLine]
  split
  · rfl
  · split
    · rfl
    · exact bind_inLine number _ fun operands rest => rfl

/-- An instruction line is one in any line of a text. -/
theorem lineOf_inLine {inst : ParsedInstruction} {rest : List Item}
    (h : lineOf items = .ok (.instruction inst) rest) :
    lineOf (items.map (Item.inLine number)) =
      .ok (.instruction inst) (rest.map (Item.inLine number)) := by
  obtain ⟨htype, hcolon, hequ, hread⟩ := readsInstruction_iff.mp h
  refine readsInstruction_iff.mpr ⟨?_, ?_, ?_, ?_⟩
  · rwa [headLexeme_inLine]
  · rwa [headColon_inLine]
  · rwa [headLexeme_inLine]
  · rw [instructionOf_inLine, hread]
    rfl

/-- The tokens of a line only differ in their line. -/
theorem itemsFrom_inLine (number' : ℕ) (h : newline ∉ text) :
    itemsFrom number text = (itemsFrom number' text).map (Item.inLine number) := by
  induction hn : text.length using Nat.strong_induction_on generalizing text with
  | _ n ih =>
    rw [itemsFrom_eq, itemsFrom_eq number']
    dsimp only
    split
    · rfl
    · rename_i heof
      have hmem := (skipBlanks_suffix text).subset
      have htype : (scanToken (skipBlanks text)).type ≠ .newline := by
        cases hs : skipBlanks text with
        | nil => exact nofun
        | cons c body =>
          intro ht
          have hc := (scanToken_at c body).newline ht
          exact h (hmem (by rw [hs, hc]; exact List.mem_cons_self))
      have hrest : newline ∉ (skipBlanks text).drop (scanToken (skipBlanks text)).length :=
        fun hin => h (hmem ((List.drop_suffix _ _).subset hin))
      rw [if_neg htype, if_neg htype, ih _ (hn ▸ length_behind heof) hrest rfl, List.map_cons]
      rfl

end number

section listing

/-- A line of one instruction, encoded as this word whatever the names in the program. -/
structure InstructionLine (line : List Byte) (inst : ParsedInstruction) (word : Word) : Prop where
  nul : 0#8 ∉ line
  oneLine : newline ∉ line
  read : lineOf (itemsFrom 1 line) = .ok (.instruction inst) []
  literal : inst.literal = none
  encoded : ∀ stale table, (parserEncodeInstruction stale table inst).1 = word

/-- A text of such lines, each with its end. -/
inductive Lists : List Byte → List ParsedInstruction → List Word → Prop
  | nil : Lists [] [] []
  | cons {line rest : List Byte} {inst : ParsedInstruction} {insts : List ParsedInstruction}
      {word : Word} {words : List Word} (hline : InstructionLine line inst word)
      (hrest : Lists rest insts words) :
      Lists (line ++ newline :: rest) (inst :: insts) (word :: words)

variable {inst : ParsedInstruction} {insts : List ParsedInstruction} {word : Word}
  {words : List Word}

theorem InstructionLine.ne_nil {line : List Byte} (h : InstructionLine line inst word) :
    line ≠ [] := by
  rintro rfl
  cases h.read

theorem InstructionLine.followed {line : List Byte} (h : InstructionLine line inst word)
    (number : ℕ) (rest : List Byte) :
    lineOf (itemsFrom number (line ++ newline :: rest)) = .ok (.instruction inst)
      (⟨signLexeme .newline newline, number, colonEnds rest⟩ :: itemsFrom (number + 1) rest) := by
  have hread := lineOf_inLine number h.read
  rw [← itemsFrom_inLine number 1 h.oneLine] at hread
  obtain ⟨used, hused, htakes⟩ := lineOf_takes hread
  have hall : itemsFrom number line = used := hused.trans (List.append_nil used)
  rw [itemsFrom_line h.nul h.oneLine (by rw [hall]; exact htakes.known), hall]
  exact htakes.anywhere _

theorem lists_lines (h : Lists text insts words) (number : ℕ) {fuel : ℕ}
    (hfuel : 2 * words.length ≤ fuel) : linesOf fuel (itemsFrom number text) =
      (insts.flatMap fun inst => [.instruction inst, .blank], .eof) := by
  induction h generalizing number fuel with
  | nil => cases fuel <;> rfl
  | @cons line rest inst insts word words hline _ ih =>
    rw [List.length_cons] at hfuel
    obtain ⟨n, rfl⟩ : ∃ n, fuel = n + 1 + 1 := ⟨fuel - 2, by omega⟩
    have hread := hline.followed number rest
    rw [linesOf_ok (lineOf_ne_eof hread) hread, linesOf_ok (lineOf_ne_eof rfl) rfl]
    have hrest := @ih (number + 1) n (by omega)
    rw [List.tail_cons, hrest]
    rfl

theorem lists_length (h : Lists text insts words) :
    2 * words.length ≤ text.length ∧ insts.length = words.length := by
  induction h with
  | nil => exact ⟨Nat.le_refl 0, rfl⟩
  | cons hline _ ih =>
    have hpos := List.length_pos_iff.mpr hline.ne_nil
    simp only [List.length_append, List.length_cons]
    omega

theorem lists_instructions (h : Lists text insts words) :
    (readSource text).ending = .eof ∧ sourceInstructions text = insts := by
  obtain ⟨hlength, -⟩ := lists_length h
  have hlines := lists_lines h 1 (show 2 * words.length ≤ text.length + 1 by omega)
  obtain ⟨hread, hending⟩ := readSource_lines text
  rw [textItems, hlines] at hread hending
  refine ⟨hending, ?_⟩
  rw [sourceInstructions, hread]
  clear h hlines hread hending hlength
  induction insts with
  | nil => rfl
  | cons inst insts ih =>
    rw [List.flatMap_cons, List.cons_append, List.cons_append, List.nil_append,
      instructions_cons_instruction, instructions_cons_none _ rfl, ih]

theorem lists_words (h : Lists text insts words) (stale : Word → ℕ → Word) (address : Word)
    (table : SymbolTable) : (encodeAll stale address table insts).1 = words := by
  induction h generalizing address table with
  | nil => rfl
  | cons hline _ ih => rw [encodeAll, hline.encoded, ih]

theorem lists_literals (h : Lists text insts words) : literals insts = [] := by
  induction h with
  | nil => rfl
  | cons hline _ ih =>
    rw [literals, List.filterMap_cons_none hline.literal]
    exact ih

end listing

section file

variable {capacity : ℕ} {stale : ℕ → Word → ℕ → Word} {input : List Byte}
  {allocated : CArray Word capacity} {file : List Byte}

/-- Without literals no entry is a string. -/
theorem no_strings (stale : ℕ → Word → ℕ → Word) (h : literals (sourceInstructions input) = []) :
    (textSymbols stale input).filter Symbol.isString = [] := by
  have hadmits :
      (sourceTable symbolTableInit input).Admits (literals (sourceInstructions input)) := by
    rw [h]
    exact ⟨by simp, List.nodup_nil, (sourceTable symbolTableInit input).bounded⟩
  rw [textSymbols_eq stale hadmits, h, allocate, List.append_nil, filter_sourceTable]

theorem file_of_no_literals (hwrite : WritesBinary stale input allocated file)
    (h : literals (sourceInstructions input) = []) :
    file = programFile (textWords stale input) [] := by
  obtain ⟨words, hfile, hsize, -, hbytes⟩ := writesBinary_file hwrite
  have hnone := no_strings stale h
  have hraised : words.length = (textWords stale input).length := by
    rw [hsize, raisedSize, hnone, length_sourceWords]
    rfl
  have hwords : words = textWords stale input := by
    apply List.ext_getElem hraised
    intro i hi hi'
    apply word_ext
    intro k hk
    have hdiv : (4 * i + k) / 4 = i := by omega
    have hmod : (4 * i + k) % 4 = k := by omega
    rw [hbytes i hi k hk, bufferByte, stringCopies, hnone]
    simp only [List.map_nil, CArray.lastCopied, Option.getD_none, hdiv, hmod, dif_pos hi']
  rw [hfile, hwords, stringData, hnone]
  rfl

theorem writesBinary_of_no_literals (stale : ℕ → Word → ℕ → Word) (allocated : CArray Word capacity)
    (hread : (readSource input).ending ≠ .failed)
    (hroom : (sourceInstructions input).length ≤ capacity)
    (h : literals (sourceInstructions input) = []) :
    WritesBinary stale input allocated (programFile (textWords stale input) []) := by
  have hnone := no_strings stale h
  have hfit : StringsFit capacity (textSymbols stale input) := by
    intro sym hmem hstring
    have hin := List.mem_filter.mpr ⟨hmem, hstring⟩
    rw [hnone] at hin
    cases hin
  have hraised : raisedSize (sourceInstructions input).length (textSymbols stale input) ≤
      capacity := by
    rw [raisedSize, hnone]
    exact hroom
  have hstart : ((assemblerInit false allocated).note [.assembling []]).symbolTable =
      symbolTableInit := symbolTable_note _
  obtain ⟨assembled, hstring⟩ := (assembleString_succeeds_iff stale hstart).mpr
    ⟨hread, hroom, hfit, hraised⟩
  obtain ⟨-, -, -, -, hle⟩ := assembleString_ok (symbolTable_note _) rfl hstring
  have hwritten : ∃ file, writtenFile (assemblerAssembleFile stale (assemblerInit false allocated)
      [] [] (some input) true) = some file := by
    unfold assemblerAssembleFile
    simp only [hstring, ok_bind, writeBinaryFileWithStrings, CArray.readFront, if_pos hle]
    exact ⟨_, rfl⟩
  obtain ⟨file, hfile⟩ := hwritten
  have hwrite : WritesBinary stale input allocated file := ⟨false, [], [], rfl, hfile⟩
  rwa [file_of_no_literals hwrite h] at hwrite

end file

end Dez.Assembler
