import Dez.Machine.Image
import Dez.Assembler.Encoding
import Dez.Assembler.Literals

/-! String literals from the source text through the binary file into the machine's memory. -/
namespace Dez.Toolchain
open Machine Assembler

variable {capacity : ℕ} {stale : ℕ → Word → ℕ → Word} {input : List Byte}
  {allocated : CArray Word capacity} {host : Host} {debugMode : Bool} {vm : DezVm}
  {words : List Word} {strings : List Byte}

/-- A file that is loaded without error leaves its words and bytes in memory. -/
theorem load_programFile (hlen : words.length < 2 ^ 32)
    (h : dezVmLoadProgram host (freshVm debugMode) (some (programFile words strings)) = .ok vm)
    (hrun : vm.cpu.state = .running) :
    words.length ≤ 1024 ∧ vm = loadedVm debugMode words strings := by
  rcases load_cases host (freshVm debugMode) (some (programFile words strings)) with
    ⟨vm', h', hcpu⟩ | ⟨ws, rest, hfile, h1, h2⟩
  · rw [h] at h'
    cases h'
    rw [hcpu] at hrun
    cases hrun
  · obtain ⟨rfl, rfl⟩ := programFile_inj hlen (by omega) (Option.some.inj hfile)
    rw [dezVmLoadProgram_programFile _ _ _ h1 h2] at h
    cases h
    exact ⟨h2, rfl⟩

/-- Instruction `i` of the text loads a literal into a register. -/
def LoadsLiteral (input : List Byte) (i : ℕ) (text : CString 255) : Prop :=
  ∃ r, (sourceInstructions input)[i]? = some ⟨.mov, [.register r, .string text]⟩

/-- Every literal and its terminator can be read from memory, from the address in its word on. -/
def LiteralsSurvive (stale : ℕ → Word → ℕ → Word) (input : List Byte) (mem : DezMemory) : Prop :=
  ∀ i text, LoadsLiteral input i text → ∀ w, (textWords stale input)[i]? = some w →
    ∀ j c, (literalBytes text)[j]? = some c →
      memoryReadByte mem (decodeImmediate w + BitVec.ofNat 32 j) = .ok (c, [])

/-- The address the symbol table has for the literal of instruction `i`. -/
def literalAddress (stale : ℕ → Word → ℕ → Word) (input : List Byte) (i : ℕ) (text : CString 255) :
    Word := (stringAddress (tableBefore stale symbolTableInit input i) text).1

/-- A byte of the words in the file, as the machine numbers them. -/
def wordByte (stale : ℕ → Word → ℕ → Word) (input : List Byte) (allocated : CArray Word capacity)
    (p : ℕ) : Byte :=
  if p / 4 < raisedSize (sourceInstructions input).length (textSymbols stale input) then
    bufferByte stale input allocated (4 * (p / 4) + (3 - p % 4))
  else 0

/-- What the layouts put at an address: in the window, the string data in whole words from `0x100`
on; elsewhere the words. -/
def Placed (stale : ℕ → Word → ℕ → Word) (input : List Byte) (allocated : CArray Word capacity)
    (p : ℕ) (c : Byte) : Prop :=
  let data := stringData (textSymbols stale input)
  if 0x100 ≤ p ∧ p < 0x200 ∧ p - 0x100 < data.length then data[p - 0x100]? = some c
  else wordByte stale input allocated p = c

/-- The word of a literal holds the low twelve bits of its address. -/
theorem literal_word (stale : ℕ → Word → ℕ → Word) {i : ℕ} {text : CString 255}
    (h : LoadsLiteral input i text) :
    ∃ w, (textWords stale input)[i]? = some w ∧
      (decodeImmediate w).toNat = (literalAddress stale input i text).toNat % 4096 := by
  obtain ⟨r, hi⟩ := h
  refine ⟨_, sourceWords_getElem _ _ hi, ?_⟩
  have hword : ∀ stale table, (parserEncodeInstruction stale table
      ⟨.mov, [.register r, .string text]⟩).1 =
        parserEncodeJump .mov (regByte r) (stringAddress table text).1 := fun _ _ => rfl
  rw [hword, encodeJump_packed, decodeImmediate_packed (immediate_lt _), toNat_and_low _ 12 _ rfl]
  rfl

/-- The loaded program has the byte that the layouts put at an address. -/
theorem byte_loaded_iff {file : List Byte} (hcapacity : capacity < 2 ^ 31)
    (hwrite : WritesBinary stale input allocated file)
    (hload : dezVmLoadProgram host (freshVm debugMode) (some file) = .ok vm)
    (hrun : vm.cpu.state = .running) (p : ℕ) (c : Byte) :
    vm.memory.byte p = c ↔ Placed stale input allocated p c := by
  obtain ⟨words, rfl, hsize, hle, hbytes⟩ := writesBinary_file hwrite
  obtain ⟨hlen, rfl⟩ := load_programFile (by omega) hload hrun
  have hbyte := byte_loadedMemory memoryInit (stringData (textSymbols stale input)) hlen p
  have hmem : (loadedVm debugMode words (stringData (textSymbols stale input))).memory =
      loadedMemory memoryInit words (stringData (textSymbols stale input)) := rfl
  rw [hmem, hbyte, Placed]
  generalize stringData (textSymbols stale input) = data
  by_cases hdata : 0x100 ≤ p ∧ p < 0x200 ∧ p - 0x100 < data.length
  · rw [dif_pos hdata, if_pos hdata, List.getElem?_eq_getElem hdata.2.2, Option.some.injEq]
  · rw [dif_neg hdata, if_neg hdata, wordByte, ← hsize]
    by_cases hp : p / 4 < words.length
    · rw [dif_pos hp, if_pos hp, hbytes _ hp _ (by omega)]
    · rw [dif_neg hp, if_neg hp]
      have hzero : memoryInit.byte p = 0 := by
        have hword : memoryInit.word (p / 4) = 0 := by
          unfold DezMemory.word
          split <;> rfl
        rw [DezMemory.byte, hword]
        simp [byteOf]
      rw [hzero]

/-- A byte of a literal is read from memory if the layouts have it at its address. -/
theorem read_literal_iff {file : List Byte} (hcapacity : capacity < 2 ^ 31)
    (hwrite : WritesBinary stale input allocated file)
    (hload : dezVmLoadProgram host (freshVm debugMode) (some file) = .ok vm)
    (hrun : vm.cpu.state = .running) {i : ℕ} {text : CString 255}
    (hloads : LoadsLiteral input i text) {w : Word} (hw : (textWords stale input)[i]? = some w)
    {j : ℕ} {c : Byte} (hj : (literalBytes text)[j]? = some c) :
    memoryReadByte vm.memory (decodeImmediate w + BitVec.ofNat 32 j) = .ok (c, []) ↔
      Placed stale input allocated ((literalAddress stale input i text).toNat % 4096 + j) c := by
  obtain ⟨w', hw', haddr⟩ := literal_word stale hloads
  obtain rfl : w = w' := Option.some.inj (hw.symm.trans hw')
  obtain ⟨hlt, -⟩ := List.getElem?_eq_some_iff.mp hj
  have hfits := text.fits
  rw [literalBytes, List.length_append, List.length_singleton] at hlt
  have hsum : (decodeImmediate w + BitVec.ofNat 32 j).toNat =
      (literalAddress stale input i text).toNat % 4096 + j := by
    rw [BitVec.toNat_add, BitVec.toNat_ofNat, haddr]
    omega
  rw [memoryReadByte_of_lt (by omega), hsum]
  simpa using byte_loaded_iff hcapacity hwrite hload hrun _ c

/-- The layouts agree when every literal gets an entry of its own, all but the last fill whole words
with their terminators, and together they fit the window. -/
theorem literals_in_place (stale : ℕ → Word → ℕ → Word) (allocated : CArray Word capacity)
    (hnew : (sourceTable symbolTableInit input).Admits (literals (sourceInstructions input)))
    (haligned : ∀ text ∈ (literals (sourceInstructions input)).dropLast,
      4 ∣ (literalBytes text).length)
    (hspace : literalSpace (literals (sourceInstructions input)) ≤ 256) {i : ℕ}
    {text : CString 255} (hloads : LoadsLiteral input i text) {j : ℕ} {c : Byte}
    (hj : (literalBytes text)[j]? = some c) :
    Placed stale input allocated ((literalAddress stale input i text).toNat % 4096 + j) c := by
  obtain ⟨r, hi⟩ := hloads
  have hl : (⟨.mov, [.register r, .string text]⟩ : ParsedInstruction).literal = some text := rfl
  have haddress := address_text stale hi hl hnew
  have hdata := stringData_text stale hnew
  rw [literals_split hi hl] at haligned hspace hdata
  generalize literals ((sourceInstructions input).take i) = before at *
  generalize literals ((sourceInstructions input).drop (i + 1)) = rest at *
  have hbefore : (before.flatMap literalPadded).length = literalSpace before := by
    apply length_padded_aligned
    intro other hother
    apply haligned
    rw [List.dropLast_append_cons]
    exact List.mem_append_left _ hother
  obtain ⟨hlt, hc⟩ := List.getElem?_eq_some_iff.mp hj
  rw [literalSpace_split] at hspace
  have hp : (literalAddress stale input i text).toNat % 4096 = 0x100 + literalSpace before := by
    rw [literalAddress, haddress, BitVec.toNat_add, BitVec.toNat_ofNat, BitVec.toNat_ofNat]
    omega
  have hbyte : (stringData (textSymbols stale input))[literalSpace before + j]? = some c := by
    rw [hdata, List.flatMap_append, ← hbefore,
      List.getElem?_append_right (Nat.le_add_right _ _), Nat.add_sub_cancel_left, List.flatMap_cons,
      literalPadded, List.append_assoc, List.getElem?_append_left hlt, hj]
  have hin := (List.getElem?_eq_some_iff.mp hbyte).1
  unfold Placed
  dsimp only
  rw [hp, if_pos (by omega), show 0x100 + literalSpace before + j - 0x100 =
    literalSpace before + j by omega]
  exact hbyte

end Dez.Toolchain
