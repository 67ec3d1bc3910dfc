import Dez.Assembler.Output
import Dez.Assembler.Passes

/-! What the string step leaves of the words, and whether the file has the documented format. -/
namespace Dez.Assembler
variable {capacity : ℕ} {assembler assembler' : DezAssembler capacity} {symbols : List Symbol}

@[simp] theorem outputBuffer_note (out : List Message) :
    (assembler.note out).outputBuffer = assembler.outputBuffer := by
  unfold DezAssembler.note
  split <;> rfl

@[simp] theorem outputSize_note (out : List Message) :
    (assembler.note out).outputSize = assembler.outputSize := by
  unfold DezAssembler.note
  split <;> rfl

@[simp] theorem symbolTable_note (out : List Message) :
    (assembler.note out).symbolTable = assembler.symbolTable := by
  unfold DezAssembler.note
  split <;> rfl

/-- The copies the string step makes: where to, counted in bytes, and what. -/
def stringCopies (symbols : List Symbol) : List (ℕ × List Byte) :=
  (symbols.filter Symbol.isString).map fun sym => (4 * sym.address.toNat, sym.text)

/-- The size the string step raises a number of words to. -/
def raisedSize (size : ℕ) (symbols : List Symbol) : ℕ :=
  (symbols.filter Symbol.isString).foldl (fun size sym => max size sym.endWord) size

theorem le_raisedSize (size : ℕ) (symbols : List Symbol) : size ≤ raisedSize size symbols := by
  unfold raisedSize
  induction symbols.filter Symbol.isString generalizing size with
  | nil => exact le_rfl
  | cons sym rest ih => exact (Nat.le_max_left _ _).trans (ih _)

theorem raisedSize_le_iff {size bound : ℕ} : raisedSize size symbols ≤ bound ↔
    size ≤ bound ∧ ∀ sym ∈ symbols, sym.isString = true → sym.endWord ≤ bound := by
  have hfold : ∀ (strings : List Symbol) (size : ℕ),
      strings.foldl (fun size sym => max size sym.endWord) size ≤ bound ↔
        size ≤ bound ∧ ∀ sym ∈ strings, sym.endWord ≤ bound := by
    intro strings
    induction strings with
    | nil => simp
    | cons sym rest ih =>
      intro size
      rw [List.foldl_cons, ih, List.forall_mem_cons, Nat.max_le, and_assoc]
  simp [raisedSize, hfold]

theorem lastCopied_before {copies : List (ℕ × List Byte)} {p : ℕ}
    (h : ∀ copy ∈ copies, p < copy.1) : CArray.lastCopied copies p = none := by
  induction copies with
  | nil => rfl
  | cons copy copies ih =>
    obtain ⟨hfirst, hrest⟩ := List.forall_mem_cons.mp h
    have hnone : CArray.copied copy.1 copy.2 p = none := if_neg (Nat.not_le.mpr hfirst)
    rw [CArray.lastCopied, ih hrest, hnone]
    rfl

section cons

variable {sym : Symbol} {size : ℕ}

theorem stringCopies_cons (hs : sym.isString = true) : stringCopies (sym :: symbols) =
    (4 * sym.address.toNat, sym.text) :: stringCopies symbols := by
  rw [stringCopies, List.filter_cons_of_pos hs]
  rfl

theorem stringCopies_cons_other (hs : ¬ sym.isString = true) :
    stringCopies (sym :: symbols) = stringCopies symbols := by
  rw [stringCopies, List.filter_cons_of_neg hs]
  rfl

theorem raisedSize_cons (hs : sym.isString = true) :
    raisedSize size (sym :: symbols) = raisedSize (max size sym.endWord) symbols := by
  rw [raisedSize, List.filter_cons_of_pos hs]
  rfl

theorem raisedSize_cons_other (hs : ¬ sym.isString = true) :
    raisedSize size (sym :: symbols) = raisedSize size symbols := by
  rw [raisedSize, List.filter_cons_of_neg hs]
  rfl

/-- One string of the string step. -/
theorem appendStrings_cons_ok (hs : sym.isString = true)
    (h : appendStrings (sym :: symbols) assembler = .ok (true, assembler')) :
    ∃ next : DezAssembler capacity, appendStrings symbols next = .ok (true, assembler') ∧
      next.symbolTable = assembler.symbolTable ∧
      (∀ p, next.outputBuffer.byte p = (CArray.copied (4 * sym.address.toNat) sym.text p).getD
        (assembler.outputBuffer.byte p)) ∧
      next.outputSize = max assembler.outputSize sym.endWord := by
  unfold appendStrings at h
  rw [if_pos hs] at h
  by_cases hexceeds : sym.endAddr.toNat > capacity * 4
  · rw [if_pos hexceeds] at h
    cases h
  · rw [if_neg hexceeds] at h
    cases hcopy : assembler.outputBuffer.memcpy (4 * sym.address.toNat) sym.text with
    | error fault =>
      rw [hcopy] at h
      cases h
    | ok buffer =>
      rw [hcopy, ok_bind] at h
      refine ⟨_, h, symbolTable_note _, ?_, ?_⟩
      · intro p
        rw [outputBuffer_note]
        exact (CArray.memcpy_ok hcopy).2 p
      · rw [outputSize_note]
        dsimp only
        split <;> omega

end cons

/-- The string step, when it succeeds: each byte is the last one copied there, and the size covers
the strings. -/
theorem appendStrings_ok (h : appendStrings symbols assembler = .ok (true, assembler')) :
    assembler'.symbolTable = assembler.symbolTable ∧
    (∀ p, assembler'.outputBuffer.byte p = (CArray.lastCopied (stringCopies symbols) p).getD
      (assembler.outputBuffer.byte p)) ∧
    assembler'.outputSize = raisedSize assembler.outputSize symbols := by
  induction symbols generalizing assembler with
  | nil =>
    cases h
    exact ⟨rfl, fun _ => rfl, rfl⟩
  | cons sym symbols ih =>
    by_cases hs : sym.isString = true
    · obtain ⟨next, hrest, htable, hbyte, hsize⟩ := appendStrings_cons_ok hs h
      obtain ⟨htable', hbyte', hsize'⟩ := ih hrest
      refine ⟨htable'.trans htable, ?_, ?_⟩
      · intro p
        rw [hbyte', hbyte, stringCopies_cons hs, CArray.lastCopied]
        cases CArray.lastCopied (stringCopies symbols) p <;> rfl
      · rw [hsize', hsize, raisedSize_cons hs]
    · unfold appendStrings at h
      rw [if_neg hs] at h
      obtain ⟨htable, hbyte, hsize⟩ := ih h
      refine ⟨htable, ?_, ?_⟩
      · rwa [stringCopies_cons_other hs]
      · rwa [raisedSize_cons_other hs]

section file

variable {stale : ℕ → Word → ℕ → Word} {input : List Byte} {allocated : CArray Word capacity}
  {file : List Byte}

/-- The words of a text as the parser leaves them in the buffer. -/
abbrev textWords (stale : ℕ → Word → ℕ → Word) (input : List Byte) : List Word :=
  (sourceWords stale symbolTableInit input).1

/-- The symbols of a text as the parser leaves them. -/
abbrev textSymbols (stale : ℕ → Word → ℕ → Word) (input : List Byte) : List Symbol :=
  (sourceWords stale symbolTableInit input).2.symbols

/-- A byte of the buffer after the string step. -/
def bufferByte (stale : ℕ → Word → ℕ → Word) (input : List Byte) (allocated : CArray Word capacity)
    (p : ℕ) : Byte :=
  (CArray.lastCopied (stringCopies (textSymbols stale input)) p).getD
    (if h : p / 4 < (textWords stale input).length then
      byteOf (textWords stale input)[p / 4] (p % 4)
    else allocated.byte p)

theorem byte_putOutput {words : List Word} (h : words.length ≤ capacity) (p : ℕ) :
    (putOutput allocated 0 words).byte p =
      if h : p / 4 < words.length then byteOf words[p / 4] (p % 4) else allocated.byte p := by
  unfold CArray.byte
  by_cases hw : p / 4 < words.length
  · rw [dif_pos hw, dif_pos (by omega), putOutput_zero _ hw]
  · rw [dif_neg hw]
    split
    · rw [putOutput, dif_neg (by simpa using hw)]
    · rfl

/-- A successful run of `assembler_assemble_string` is a parse followed by the string step. -/
theorem assembleString_cases {start : DezAssembler capacity}
    (h : assemblerAssembleString stale start input = .ok (true, assembler)) :
    (parserParse stale (parserInit input start.symbolTable start.outputBuffer)).1 = true ∧
    ∃ before after : DezAssembler capacity,
      appendStrings before.symbolTable.symbols before = .ok (true, after) ∧
      before.symbolTable =
        (parserParse stale (parserInit input start.symbolTable start.outputBuffer)).2.symbolTable ∧
      before.outputBuffer =
        (parserParse stale (parserInit input start.symbolTable start.outputBuffer)).2.output ∧
      before.outputSize =
        (parserParse stale (parserInit input start.symbolTable start.outputBuffer)).2.outputSize ∧
      after.outputSize ≤ capacity ∧ ∃ out, assembler = after.note out := by
  unfold assemblerAssembleString at h
  simp only [symbolTable_note, outputBuffer_note] at h
  generalize
    parserParse stale (parserInit input start.symbolTable start.outputBuffer) = parsed at h ⊢
  obtain ⟨success, parser⟩ := parsed
  cases success with
  | false => cases h
  | true =>
    obtain ⟨⟨done, after⟩, happend, h⟩ := bind_eq_ok h
    obtain ⟨words, hwords, h⟩ := bind_eq_ok h
    cases h
    exact ⟨rfl, { start.note [.starting] with
        symbolTable := parser.symbolTable
        outputBuffer := parser.output
        outputSize := parser.outputSize
        printed := (start.note [.starting]).printed ++ parser.printed },
      after, happend, rfl, rfl, rfl, (CArray.readFront_ok hwords).1, _, rfl⟩

theorem assembleString_ok {start : DezAssembler capacity}
    (htable : start.symbolTable = symbolTableInit) (hbuffer : start.outputBuffer = allocated)
    (h : assemblerAssembleString stale start input = .ok (true, assembler)) :
    (sourceInstructions input).length ≤ capacity ∧
    assembler.symbolTable = (sourceWords stale symbolTableInit input).2 ∧
    (∀ p, assembler.outputBuffer.byte p = bufferByte stale input allocated p) ∧
    assembler.outputSize = raisedSize (sourceInstructions input).length (textSymbols stale input) ∧
    assembler.outputSize ≤ capacity := by
  obtain ⟨hparse, before, after, happend, htable₀, hbuffer₀, hsize, hle, out, rfl⟩ :=
    assembleString_cases h
  rw [htable, hbuffer] at hparse htable₀ hbuffer₀ hsize
  have hroom := ((parserParse_iff _ _ _ _).mp hparse).2
  obtain ⟨-, htable', hbuffer', hsize'⟩ := parserParse_eq hparse
  obtain ⟨hkeep, hbyte, hraised⟩ := appendStrings_ok happend
  have hsymbols : before.symbolTable = (sourceWords stale symbolTableInit input).2 :=
    htable₀.trans htable'
  rw [symbolTable_note, outputBuffer_note, outputSize_note, hkeep, hraised, hsize, hsize', hsymbols]
  rw [hraised, hsize, hsize', hsymbols] at hle
  refine ⟨hroom, rfl, ?_, rfl, hle⟩
  intro p
  rw [hbyte, hbuffer₀, hbuffer', hsymbols, bufferByte,
    byte_putOutput (by rwa [length_sourceWords])]

/-- The file a successful `assembler_assemble_file` has written. -/
def writtenFile : Except Fault (Bool × Option (List Byte) × DezAssembler capacity) →
    Option (List Byte)
  | .ok (true, some file, _) => some file
  | _ => none

theorem writtenFile_eq_some
    {result : Except Fault (Bool × Option (List Byte) × DezAssembler capacity)}
    (h : writtenFile result = some file) :
    ∃ assembler, result = .ok (true, some file, assembler) := by
  unfold writtenFile at h
  split at h
  · cases h
    exact ⟨_, rfl⟩
  · cases h

/-- `assembler_assemble_file` accepts the text and writes it as this binary file. -/
def WritesBinary (stale : ℕ → Word → ℕ → Word) (input : List Byte)
    (allocated : CArray Word capacity) (file : List Byte) : Prop :=
  ∃ verbose inputFile outputFile, isHexFile outputFile = false ∧
    writtenFile (assemblerAssembleFile stale (assemblerInit verbose allocated) inputFile outputFile
      (some input) true) = some file

/-- A binary file counts the words of the buffer up to the raised size, and ends in the strings. -/
theorem writesBinary_file (h : WritesBinary stale input allocated file) :
    ∃ words, file = programFile words (stringData (textSymbols stale input)) ∧
      words.length = raisedSize (sourceInstructions input).length (textSymbols stale input) ∧
      words.length ≤ capacity ∧ ∀ i (hi : i < words.length), ∀ k < 4,
        byteOf words[i] k = bufferByte stale input allocated (4 * i + k) := by
  obtain ⟨verbose, inputFile, outputFile, hhex, h⟩ := h
  obtain ⟨assembler, h⟩ := writtenFile_eq_some h
  obtain ⟨⟨success, assembled⟩, hstring, h⟩ := bind_eq_ok h
  cases success with
  | false => cases h
  | true =>
    simp only [Bool.not_true, Bool.false_eq_true, if_false, hhex] at h
    obtain ⟨written, hwrite, h⟩ := bind_eq_ok h
    cases h
    obtain ⟨words, hfront, hfile⟩ := bind_eq_ok hwrite
    cases hfile
    obtain ⟨-, htable, hbyte, hsize, hle⟩ :=
      assembleString_ok (symbolTable_note _) (outputBuffer_note _) hstring
    obtain ⟨-, rfl⟩ := CArray.readFront_ok hfront
    have hlen := assembled.outputBuffer.length_front hle
    have hallocated : (assemblerInit verbose allocated).outputBuffer = allocated := rfl
    rw [hallocated] at hbyte
    refine ⟨_, ?_, hlen.trans hsize, hlen.le.trans hle, ?_⟩
    · rw [programFile, hlen, htable]
    · intro i hi k hk
      rw [← hbyte, CArray.getElem_front]
      exact ((CArray.eq_iff_byte _ _).mp rfl k hk).symm

/-- The strings do not raise the size above the number of words, and where a string is copied over
the words it puts the bytes that are there. -/
def KeepsWords (words : List Word) (symbols : List Symbol) : Prop :=
  (∀ sym ∈ symbols, sym.isString = true → sym.endWord ≤ words.length) ∧
  ∀ p (hp : p / 4 < words.length) c, CArray.lastCopied (stringCopies symbols) p = some c →
    c = byteOf words[p / 4] (p % 4)

theorem raisedSize_eq_iff : raisedSize (sourceInstructions input).length (textSymbols stale input) =
    (textWords stale input).length ↔ ∀ sym ∈ textSymbols stale input, sym.isString = true →
      sym.endWord ≤ (textWords stale input).length := by
  have hlen : (textWords stale input).length = (sourceInstructions input).length :=
    length_sourceWords
  rw [hlen]
  constructor
  · intro h
    exact (raisedSize_le_iff.mp h.le).2
  · intro h
    exact le_antisymm (raisedSize_le_iff.mpr ⟨le_rfl, h⟩) (le_raisedSize _ _)

/-- A byte of the words survives the string step unless another is copied over it. -/
theorem bufferByte_eq_iff (allocated : CArray Word capacity) {p : ℕ}
    (hp : p / 4 < (textWords stale input).length) :
    bufferByte stale input allocated p = byteOf (textWords stale input)[p / 4] (p % 4) ↔
      ∀ c, CArray.lastCopied (stringCopies (textSymbols stale input)) p = some c →
        c = byteOf (textWords stale input)[p / 4] (p % 4) := by
  unfold bufferByte
  cases CArray.lastCopied (stringCopies (textSymbols stale input)) p with
  | none => simp [hp]
  | some c => simp

/-- The binary file of a text has the documented format, the number of the instructions, their
words, and the string data, if and only if the string step keeps the words and their number. -/
theorem file_format_iff (stale : ℕ → Word → ℕ → Word) (input : List Byte)
    (allocated : CArray Word capacity) (hcapacity : capacity < 2 ^ 31) (file : List Byte)
    (h : WritesBinary stale input allocated file) :
    file = programFile (textWords stale input) (stringData (textSymbols stale input)) ↔
      KeepsWords (textWords stale input) (textSymbols stale input) := by
  obtain ⟨words, rfl, hsize, hle, hbytes⟩ := writesBinary_file h
  have hn : (textWords stale input).length ≤ words.length := by
    rw [hsize, length_sourceWords]
    exact le_raisedSize _ _
  constructor
  · intro hfile
    obtain ⟨rfl, -⟩ := programFile_inj (by omega) (by omega) hfile
    refine ⟨raisedSize_eq_iff.mp hsize.symm, ?_⟩
    intro p hp
    apply (bufferByte_eq_iff allocated hp).mp
    rw [hbytes (p / 4) hp (p % 4) (Nat.mod_lt _ (by omega)), Nat.div_add_mod]
  · rintro ⟨hends, hcopies⟩
    have hwords : words = textWords stale input := by
      apply List.ext_getElem (hsize.trans (raisedSize_eq_iff.mpr hends))
      intro i hi hi'
      apply word_ext
      intro k hk
      have hdiv : (4 * i + k) / 4 = i := by omega
      have hmod : (4 * i + k) % 4 = k := by omega
      have hp : (4 * i + k) / 4 < (textWords stale input).length := by omega
      have hbyte := (bufferByte_eq_iff allocated hp).mpr (hcopies _ hp)
      rw [hbytes i hi k hk, hbyte]
      simp only [hdiv, hmod]
    rw [hwords]

/-- A string behind sixty-five instructions. -/
theorem file_format_iff_string :
    programFile (0x10000100#32 :: List.replicate 64 0x12000000#32) (bytes "a" ++ [0, 0, 0]) =
        programFile (textWords (fun _ _ _ => 0)
          (bytes "MOV R0, \"a\"\n" ++ (List.replicate 64 (bytes "NOP\n")).flatten))
          (stringData (textSymbols (fun _ _ _ => 0)
            (bytes "MOV R0, \"a\"\n" ++ (List.replicate 64 (bytes "NOP\n")).flatten))) ↔
      KeepsWords (textWords (fun _ _ _ => 0)
          (bytes "MOV R0, \"a\"\n" ++ (List.replicate 64 (bytes "NOP\n")).flatten))
        (textSymbols (fun _ _ _ => 0)
          (bytes "MOV R0, \"a\"\n" ++ (List.replicate 64 (bytes "NOP\n")).flatten)) :=
  file_format_iff (fun _ _ _ => 0) _ (fun _ : Fin 260 => 0) (by decide) _
    ⟨false, [], bytes "a.dez", by decide, by decide +kernel⟩
/-- One string, and the header of a one-line program counts 65 instructions. -/
theorem header_counts_strings :
    ¬ ∀ capacity stale input (allocated : CArray Word capacity), capacity < 2 ^ 31 →
      ∀ file, WritesBinary stale input allocated file →
        file = programFile (textWords stale input) (stringData (textSymbols stale input)) := by
  intro h
  have hwritten : (writtenFile (assemblerAssembleFile (fun _ _ _ => 0)
      (assemblerInit false fun _ : Fin 260 => 0) [] (bytes "a.dez") (some (bytes "MOV R0, \"a\""))
      true)).map (List.take 4) = some (wordBytes 65) := by decide
  obtain ⟨file, hfile, htake⟩ := Option.map_eq_some_iff.mp hwritten
  have hformat := h 260 (fun _ _ _ => 0) (bytes "MOV R0, \"a\"") (fun _ => 0) (by decide) file
    ⟨false, [], bytes "a.dez", by decide, hfile⟩
  rw [hformat] at htake
  exact absurd htake (by decide +kernel)

end file

end Dez.Assembler
