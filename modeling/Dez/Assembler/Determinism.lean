import Dez.Assembler.Encoding
import Dez.Assembler.Symbols
import Dez.Assembler.Format

/-! What the written file owes to memory that nobody initialised. -/
namespace Dez.Assembler
variable {capacity : ℕ} {inst : ParsedInstruction} {table : SymbolTable} {r : Fin 16} {i : ℕ}

/-- A register stands where the encoder reads four bytes, and the parser has written one. -/
def ParsedInstruction.ReadsStale (inst : ParsedInstruction) : Prop :=
  ∃ i r, wholeOperand inst.type = some i ∧ inst.operand i = .register r

theorem getLsbD_encodeJump_high (type : DezInstructionType) (reg : Byte) (v v' : Word) {j : ℕ}
    (hj : 12 ≤ j) :
    (parserEncodeJump type reg v).getLsbD j = (parserEncodeJump type reg v').getLsbD j := by
  have hmask : (0x0FFF#32).getLsbD j = false := by
    by_cases h : j < 32
    · interval_cases j <;> rfl
    · exact BitVec.getLsbD_of_ge _ _ (by omega)
  simp only [parserEncodeJump, BitVec.getLsbD_or, BitVec.getLsbD_and, hmask, Bool.and_false]

/-- Of the stale bytes of a register operand the word takes four bits. -/
theorem byteOf_encodeJump (type : DezInstructionType) (reg n : Byte) (s s' : Word) {k : ℕ}
    (hk : k < 4) (hone : k ≠ 1) :
    byteOf (parserEncodeJump type reg (putByte s 0 n)) k =
      byteOf (parserEncodeJump type reg (putByte s' 0 n)) k := by
  apply BitVec.eq_of_getLsbD_eq
  intro j hj
  rw [getLsbD_byteOf _ _ _ hj, getLsbD_byteOf _ _ _ hj]
  by_cases h : 12 ≤ 8 * k + j
  · exact getLsbD_encodeJump_high _ _ _ _ h
  · have h0 : k = 0 := by omega
    subst h0
    rw [getLsbD_encodeJump _ _ _ (by omega), getLsbD_encodeJump _ _ _ (by omega),
      getLsbD_putByte _ _ _ _ (by omega), getLsbD_putByte _ _ _ _ (by omega),
      if_pos (by omega), if_pos (by omega)]

/-- Its lowest stale bit is bit 8 of the word. -/
theorem getLsbD_stale (type : DezInstructionType) (reg n : Byte) (s : Word) :
    (parserEncodeJump type reg (putByte s 0 n)).getLsbD 8 = s.getLsbD 8 := by
  rw [getLsbD_encodeJump _ _ _ (by omega), getLsbD_putByte _ _ _ _ (by omega), if_neg (by omega)]
  rfl

section encode

variable {stale stale' : ℕ → Word}

theorem resolve_stale {s s' : Word} {operand : Operand} (h : ∀ r, operand ≠ .register r) :
    resolve s table operand = resolve s' table operand := by
  cases operand with
  | register r => exact absurd rfl (h r)
  | _ => rfl

theorem value_stale {s s' : Word} {operand : Operand} (h : ∀ r, operand ≠ .register r) :
    operand.value s = operand.value s' := by
  cases operand with
  | register r => exact absurd rfl (h r)
  | _ => rfl

/-- A register read whole goes into the word with what was there before. -/
theorem encode_readsStale (table : SymbolTable) (hi : wholeOperand inst.type = some i)
    (hop : inst.operand i = .register r) :
    ∃ reg, ∀ stale, (parserEncodeInstruction stale table inst).1 =
      parserEncodeJump inst.type reg (putByte (stale i) 0 (BitVec.ofNat 8 r)) := by
  obtain ⟨reg, hencode⟩ := encode_whole hi (by rw [hop]; exact ⟨nofun, nofun⟩)
  refine ⟨reg, fun stale => ?_⟩
  rw [hencode, hop]
  rfl

/-- Any other instruction is encoded from what the parser has written alone. -/
theorem encode_not_readsStale (h : ¬ inst.ReadsStale) :
    (parserEncodeInstruction stale table inst).1 =
      (parserEncodeInstruction stale' table inst).1 := by
  have hno : ∀ i, wholeOperand inst.type = some i → ∀ r, inst.operand i ≠ .register r :=
    fun i hi r hop => h ⟨i, r, hi, hop⟩
  obtain ⟨type, operands⟩ := inst
  cases type with
  | mov =>
    have hop := hno 1 rfl
    unfold parserEncodeInstruction
    dsimp only
    split
    · rfl
    · rw [resolve_stale hop]
  | load =>
    have hop := hno 1 rfl
    unfold parserEncodeInstruction
    dsimp only
    rw [resolve_stale hop]
  | store | sys =>
    have hop := hno 1 rfl
    unfold parserEncodeInstruction
    dsimp only
    rw [value_stale hop]
  | jmp | jz | jnz | jl | jg | jle | jge | call =>
    have hop := hno 0 rfl
    unfold parserEncodeInstruction
    dsimp only
    rw [resolve_stale hop]
  | add | sub | mul | div | cmp =>
    unfold parserEncodeInstruction
    dsimp only
    split
    · rename_i himm
      rw [value_stale fun r hr => by rw [hr] at himm; cases himm]
    · rfl
  | _ => rfl

theorem encode_table_stale (stale stale' : ℕ → Word) (table : SymbolTable)
    (inst : ParsedInstruction) : (parserEncodeInstruction stale table inst).2.1 =
      (parserEncodeInstruction stale' table inst).2.1 := by
  obtain ⟨word, hsearch⟩ := encode_eq_search stale inst
  obtain ⟨word', hsearch'⟩ := encode_eq_search stale' inst
  rw [(hsearch table).2, (hsearch' table).2]

/-- The symbol table owes nothing to the stack. -/
theorem encodeAll_table_stale {stale stale' : Word → ℕ → Word} (address : Word)
    (insts : List ParsedInstruction) :
    (encodeAll stale address table insts).2 = (encodeAll stale' address table insts).2 := by
  induction insts generalizing address table with
  | nil => rfl
  | cons inst insts ih =>
    have htable := encode_table_stale (stale address) (stale' address) table inst
    simp only [encodeAll, htable]
    exact ih _

end encode

section accepted

variable {symbols : List Symbol} {assembler : DezAssembler capacity}

/-- The strings can be copied to where their addresses point as indices of words, and pass the
check on their addresses as numbers of bytes. -/
def StringsFit (capacity : ℕ) (symbols : List Symbol) : Prop :=
  ∀ sym ∈ symbols, sym.isString = true →
    sym.endAddr.toNat ≤ capacity * 4 ∧ 4 * sym.address.toNat + sym.text.length ≤ 4 * capacity

theorem appendStrings_succeeds_iff :
    (∃ assembler', appendStrings symbols assembler = .ok (true, assembler')) ↔
      StringsFit capacity symbols := by
  induction symbols generalizing assembler with
  | nil => exact iff_of_true ⟨assembler, rfl⟩ nofun
  | cons sym symbols ih =>
    by_cases hs : sym.isString = true
    · by_cases hexceeds : sym.endAddr.toNat > capacity * 4
      · refine iff_of_false ?_ fun h => ?_
        · rintro ⟨assembler', h⟩
          unfold appendStrings at h
          rw [if_pos hs, if_pos hexceeds] at h
          cases h
        · have hfit := (h sym List.mem_cons_self hs).1
          omega
      · have hne : sym.text ≠ [] := by simp [Symbol.text]
        cases hcopy : assembler.outputBuffer.memcpy (4 * sym.address.toNat) sym.text with
        | error fault =>
          refine iff_of_false ?_ fun h => ?_
          · rintro ⟨assembler', h⟩
            unfold appendStrings at h
            rw [if_pos hs, if_neg hexceeds, hcopy] at h
            cases h
          · obtain ⟨buffer, hok⟩ := CArray.memcpy_of_le (a := assembler.outputBuffer)
              (h sym List.mem_cons_self hs).2
            rw [hok] at hcopy
            cases hcopy
        | ok buffer =>
          unfold appendStrings
          rw [if_pos hs, if_neg hexceeds, hcopy, ok_bind]
          refine ih.trans ?_
          unfold StringsFit
          rw [List.forall_mem_cons]
          refine (and_iff_right fun _ => ?_).symm
          exact ⟨by omega, (CArray.memcpy_ok hcopy).1 hne⟩
    · unfold appendStrings
      rw [if_neg hs]
      refine ih.trans ?_
      unfold StringsFit
      rw [List.forall_mem_cons]
      exact (and_iff_right fun h => absurd h hs).symm

variable {stale : ℕ → Word → ℕ → Word} {input : List Byte} {allocated : CArray Word capacity}

/-- What makes `assembler_assemble_string` succeed; the initial contents have no part in it. -/
theorem assembleString_succeeds_iff (stale : ℕ → Word → ℕ → Word) {start : DezAssembler capacity}
    (htable : start.symbolTable = symbolTableInit) :
    (∃ assembler, assemblerAssembleString stale start input = .ok (true, assembler)) ↔
      (readSource input).ending ≠ .failed ∧ (sourceInstructions input).length ≤ capacity ∧
      StringsFit capacity (textSymbols stale input) ∧
      raisedSize (sourceInstructions input).length (textSymbols stale input) ≤ capacity := by
  constructor
  · rintro ⟨assembler, h⟩
    obtain ⟨hparse, before, after, happend, hsymbols, -, hsize, hle, -⟩ := assembleString_cases h
    rw [htable] at hparse hsymbols hsize
    obtain ⟨hread, hroom⟩ := (parserParse_iff _ _ _ _).mp hparse
    obtain ⟨-, htable', -, hsize'⟩ := parserParse_eq hparse
    have hbefore : before.symbolTable.symbols = textSymbols stale input :=
      congrArg SymbolTable.symbols (hsymbols.trans htable')
    rw [(appendStrings_ok happend).2.2, hsize, hsize', hbefore] at hle
    exact ⟨hread, hroom, hbefore ▸ appendStrings_succeeds_iff.mp ⟨after, happend⟩, hle⟩
  · rintro ⟨hread, hroom, hfit, hraised⟩
    have hparse := (parserParse_iff stale symbolTableInit start.outputBuffer input).mpr
      ⟨hread, hroom⟩
    obtain ⟨-, hsymbols, -, hsize⟩ := parserParse_eq hparse
    unfold assemblerAssembleString
    simp only [symbolTable_note, outputBuffer_note, htable]
    generalize parserParse stale (parserInit input symbolTableInit start.outputBuffer) = parsed at *
    obtain ⟨success, parser⟩ := parsed
    cases hparse
    dsimp only at hsymbols hsize ⊢
    have hsyms : parser.symbolTable.symbols = textSymbols stale input :=
      congrArg SymbolTable.symbols hsymbols
    rw [← hsyms] at hfit hraised
    obtain ⟨after, happend⟩ : ∃ after, appendStrings parser.symbolTable.symbols
        { start.note [.starting] with
          symbolTable := parser.symbolTable
          outputBuffer := parser.output
          outputSize := parser.outputSize
          printed := (start.note [.starting]).printed ++ parser.printed } = .ok (true, after) :=
      appendStrings_succeeds_iff.mpr hfit
    have hle : after.outputSize ≤ capacity := by
      rw [(appendStrings_ok happend).2.2, hsize]
      exact hraised
    rw [if_pos rfl]
    simp only [DezAssembler.print]
    rw [happend, ok_bind, CArray.readFront, if_pos hle, ok_bind]
    exact ⟨_, rfl⟩

theorem textSymbols_stale (stale stale' : ℕ → Word → ℕ → Word) (input : List Byte) :
    textSymbols stale input = textSymbols stale' input :=
  congrArg SymbolTable.symbols (encodeAll_table_stale _ _)

/-- A text that is accepted once is accepted whatever the memory held. -/
theorem writesBinary_again {file : List Byte} (h : WritesBinary stale input allocated file)
    (stale' : ℕ → Word → ℕ → Word) (allocated' : CArray Word capacity) :
    ∃ file', WritesBinary stale' input allocated' file' := by
  obtain ⟨verbose, inputFile, outputFile, hhex, h⟩ := h
  obtain ⟨assembler, h⟩ := writtenFile_eq_some h
  obtain ⟨⟨success, assembled⟩, hstring, h⟩ := bind_eq_ok h
  cases success with
  | false => cases h
  | true =>
    have hconditions := (assembleString_succeeds_iff stale (symbolTable_note _)).mp ⟨_, hstring⟩
    rw [textSymbols_stale stale stale'] at hconditions
    have hstart : ((assemblerInit verbose allocated').note
        [.assembling inputFile]).symbolTable = symbolTableInit := symbolTable_note _
    obtain ⟨assembled', hstring'⟩ := (assembleString_succeeds_iff stale' hstart).mpr hconditions
    obtain ⟨-, -, -, -, hle⟩ := assembleString_ok (symbolTable_note _) rfl hstring'
    have hwritten : ∃ file', writtenFile (assemblerAssembleFile stale'
        (assemblerInit verbose allocated') inputFile outputFile (some input) true) =
          some file' := by
      unfold assemblerAssembleFile
      simp only [hstring', ok_bind, hhex, writeBinaryFileWithStrings, CArray.readFront, if_pos hle]
      exact ⟨_, rfl⟩
    obtain ⟨file', hfile⟩ := hwritten
    exact ⟨file', verbose, inputFile, outputFile, hhex, hfile⟩

end accepted

section output

variable {stale stale' : ℕ → Word → ℕ → Word} {input : List Byte}
  {allocated allocated' : CArray Word capacity} {file : List Byte}

/-- Whatever reaches the file has been written: every byte up to the raised size is a string's, or
one of an instruction's word, without the one that stale bits go into. -/
def Determined (input : List Byte) : Prop :=
  let symbols := textSymbols (fun _ _ _ => 0) input
  ∀ p, p / 4 < raisedSize (sourceInstructions input).length symbols →
    CArray.lastCopied (stringCopies symbols) p ≠ none ∨
    ∃ inst, (sourceInstructions input)[p / 4]? = some inst ∧ ¬ (p % 4 = 1 ∧ inst.ReadsStale)

theorem getElem_textWords (stale : ℕ → Word → ℕ → Word) {i : ℕ} {inst : ParsedInstruction}
    (hi : (sourceInstructions input)[i]? = some inst) :
    ∃ h : i < (textWords stale input).length, (textWords stale input)[i] =
      (parserEncodeInstruction (stale 2 (BitVec.ofNat 32 i))
        (tableBefore stale symbolTableInit input i) inst).1 :=
  List.getElem?_eq_some_iff.mp (sourceWords_getElem stale symbolTableInit hi)

/-- A byte of an instruction's word, unless stale bits go into it. -/
theorem byteOf_textWords (stale stale' : ℕ → Word → ℕ → Word) {p : ℕ} {inst : ParsedInstruction}
    (hi : (sourceInstructions input)[p / 4]? = some inst) (h : ¬ (p % 4 = 1 ∧ inst.ReadsStale)) :
    ∃ (hp : p / 4 < (textWords stale input).length) (hp' : p / 4 < (textWords stale' input).length),
      byteOf (textWords stale input)[p / 4] (p % 4) =
        byteOf (textWords stale' input)[p / 4] (p % 4) := by
  obtain ⟨hp, hword⟩ := getElem_textWords stale hi
  obtain ⟨hp', hword'⟩ := getElem_textWords stale' hi
  have htable : tableBefore stale symbolTableInit input (p / 4) =
      tableBefore stale' symbolTableInit input (p / 4) := encodeAll_table_stale _ _
  refine ⟨hp, hp', ?_⟩
  rw [hword, hword', htable]
  by_cases hr : inst.ReadsStale
  · obtain ⟨i, r, hwhole, hop⟩ := hr
    obtain ⟨reg, hencode⟩ := encode_readsStale (tableBefore stale' symbolTableInit input (p / 4))
      hwhole hop
    rw [hencode, hencode]
    exact byteOf_encodeJump _ _ _ _ _ (Nat.mod_lt _ (by omega))
      fun hone => h ⟨hone, i, r, hwhole, hop⟩
  · rw [encode_not_readsStale hr]

theorem bufferByte_determined {p : ℕ}
    (h : CArray.lastCopied (stringCopies (textSymbols stale input)) p ≠ none ∨
      ∃ inst, (sourceInstructions input)[p / 4]? = some inst ∧ ¬ (p % 4 = 1 ∧ inst.ReadsStale)) :
    bufferByte stale input allocated p = bufferByte stale' input allocated' p := by
  unfold bufferByte
  rw [textSymbols_stale stale' stale]
  cases hcopied : CArray.lastCopied (stringCopies (textSymbols stale input)) p with
  | some c => rw [Option.getD_some, Option.getD_some]
  | none =>
    rcases h with h | ⟨inst, hi, hstale⟩
    · exact absurd hcopied h
    · obtain ⟨hp, hp', hbyte⟩ := byteOf_textWords stale stale' hi hstale
      simp only [Option.getD_none, dif_pos hp, dif_pos hp']
      exact hbyte

/-- Two files of one text are equal if their words have the same bytes. -/
theorem writesBinary_eq_iff {file file' : List Byte} (h : WritesBinary stale input allocated file)
    (h' : WritesBinary stale' input allocated' file') :
    file = file' ↔ ∀ p, p / 4 < raisedSize (sourceInstructions input).length
        (textSymbols (fun _ _ _ => 0) input) →
      bufferByte stale input allocated p = bufferByte stale' input allocated' p := by
  obtain ⟨words, rfl, hsize, -, hbytes⟩ := writesBinary_file h
  obtain ⟨words', rfl, hsize', -, hbytes'⟩ := writesBinary_file h'
  rw [textSymbols_stale stale fun _ _ _ => 0] at hsize ⊢
  rw [textSymbols_stale stale' fun _ _ _ => 0] at hsize' ⊢
  have hlen : words.length = words'.length := hsize.trans hsize'.symm
  rw [← hsize]
  constructor
  · intro hfile p hp
    rw [programFile, programFile, hlen, List.append_assoc, List.append_assoc] at hfile
    obtain ⟨-, hrest⟩ := wordBytes_append_inj hfile
    obtain ⟨rfl, -⟩ := flatMap_wordBytes_inj hlen hrest
    have hmod := Nat.mod_lt p (show 4 > 0 by omega)
    have hbyte := hbytes _ hp _ hmod
    rw [hbytes' _ hp _ hmod, Nat.div_add_mod] at hbyte
    exact hbyte.symm
  · intro hsame
    have hwords : words = words' := by
      apply List.ext_getElem hlen
      intro i hi hi'
      apply word_ext
      intro k hk
      rw [hbytes i hi k hk, hbytes' i hi' k hk]
      exact hsame _ (by omega)
    rw [hwords]

/-- A byte that nothing but the initial contents decides differs between memory full of zeros and
memory full of ones. -/
theorem bufferByte_undetermined {p : ℕ} (hp : p / 4 < capacity)
    (hcopied : CArray.lastCopied (stringCopies (textSymbols (fun _ _ _ => 0) input)) p = none)
    (hno : ∀ inst, (sourceInstructions input)[p / 4]? = some inst → p % 4 = 1 ∧ inst.ReadsStale) :
    bufferByte (fun _ _ _ => 0) input (fun _ : Fin capacity => 0) p ≠
      bufferByte (fun _ _ _ => BitVec.allOnes 32) input
        (fun _ : Fin capacity => BitVec.allOnes 32) p := by
  have hcopied' := hcopied
  rw [textSymbols_stale (fun _ _ _ => 0) fun _ _ _ => BitVec.allOnes 32] at hcopied'
  unfold bufferByte
  rw [hcopied, hcopied', Option.getD_none, Option.getD_none]
  cases hi : (sourceInstructions input)[p / 4]? with
  | none =>
    have hge : ∀ stale, ¬ p / 4 < (textWords stale input).length := by
      intro stale
      rw [length_sourceWords]
      exact Nat.not_lt.mpr (List.getElem?_eq_none_iff.mp hi)
    unfold CArray.byte
    rw [dif_neg (hge _), dif_neg (hge _), dif_pos hp, dif_pos hp]
    have hmod := Nat.mod_lt p (show 4 > 0 by omega)
    generalize p % 4 = k at hmod
    dsimp only
    interval_cases k <;> decide
  | some inst =>
    obtain ⟨hone, i, r, hwhole, hop⟩ := hno inst hi
    obtain ⟨hlt, hword⟩ := getElem_textWords (fun _ _ _ => 0) hi
    obtain ⟨hlt', hword'⟩ := getElem_textWords (fun _ _ _ => BitVec.allOnes 32) hi
    rw [dif_pos hlt, dif_pos hlt', hword, hword', hone]
    obtain ⟨reg, hencode⟩ := encode_readsStale
      (tableBefore (fun _ _ _ => 0) symbolTableInit input (p / 4)) hwhole hop
    obtain ⟨reg', hencode'⟩ := encode_readsStale
      (tableBefore (fun _ _ _ => BitVec.allOnes 32) symbolTableInit input (p / 4)) hwhole hop
    rw [hencode, hencode']
    intro heq
    have hbit := congrArg (fun b => b.getLsbD 0) heq
    simp only [getLsbD_byteOf _ _ _ (show 0 < 8 by omega)] at hbit
    rw [getLsbD_stale, getLsbD_stale] at hbit
    exact absurd hbit (by decide)

/-- The file of a text is the same whatever the allocated buffer and the parser's stack held if and
only if all of it has been written. -/
theorem output_determined_iff (stale : ℕ → Word → ℕ → Word) (input : List Byte)
    (allocated : CArray Word capacity) (file : List Byte)
    (h : WritesBinary stale input allocated file) :
    (∀ (stale' : ℕ → Word → ℕ → Word) (allocated' : CArray Word capacity) file',
      WritesBinary stale' input allocated' file' → file' = file) ↔ Determined input := by
  constructor
  · intro hsame p hp
    by_contra hno
    push Not at hno
    obtain ⟨hcopied, hinst⟩ := hno
    obtain ⟨file₀, h₀⟩ := writesBinary_again h (fun _ _ _ => 0) fun _ => 0
    obtain ⟨file₁, h₁⟩ := writesBinary_again h (fun _ _ _ => BitVec.allOnes 32) fun _ =>
      BitVec.allOnes 32
    have heq : file₀ = file₁ := (hsame _ _ _ h₀).trans (hsame _ _ _ h₁).symm
    obtain ⟨words, -, hsize, hle, -⟩ := writesBinary_file h₀
    exact bufferByte_undetermined (by omega) hcopied hinst
      ((writesBinary_eq_iff h₀ h₁).mp heq p hp)
  · intro hdet stale' allocated' file' h'
    apply (writesBinary_eq_iff h' h).mpr
    intro p hp
    have hp' := hdet p hp
    rw [textSymbols_stale (fun _ _ _ => 0) stale'] at hp'
    exact bufferByte_determined hp'

/-- A string, and a register that is read whole. -/
theorem output_determined_iff_stale :
    (∀ (stale' : ℕ → Word → ℕ → Word) (allocated' : CArray Word 260) file',
      WritesBinary stale' (bytes "MOV R0, \"a\"\nMOV R1, R2") allocated' file' →
        file' = programFile ([0x10000100#32, 0x10100002#32] ++ List.replicate 63 0)
          (bytes "a" ++ [0, 0, 0])) ↔
      Determined (bytes "MOV R0, \"a\"\nMOV R1, R2") :=
  output_determined_iff (fun _ _ _ => 0) (bytes "MOV R0, \"a\"\nMOV R1, R2") (fun _ => 0) _
    ⟨false, [], bytes "a.dez", by decide, by decide +kernel⟩

/-- The word of `MOV R0, R1` has four bits of the stack in it. -/
theorem stale_bits_written :
    ¬ ∀ capacity (stale stale' : ℕ → Word → ℕ → Word) input
      (allocated allocated' : CArray Word capacity) file file',
        WritesBinary stale input allocated file → WritesBinary stale' input allocated' file' →
          file = file' := by
  intro h
  have hsame := h 1 (fun _ _ _ => 0) (fun _ _ _ => BitVec.allOnes 32) (bytes "MOV R0, R1")
    (fun _ => 0) (fun _ => 0) (programFile [0x10000001#32] []) (programFile [0x10000F01#32] [])
    ⟨false, [], bytes "a.dez", by decide, by decide⟩
    ⟨false, [], bytes "a.dez", by decide, by decide⟩
  exact absurd hsame (by decide)

end output

end Dez.Assembler
