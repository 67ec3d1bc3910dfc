import Dez.Acceptance
import Dez.Semantics.Compile
import Dez.Semantics.Loaded
import Dez.StringStorage

/-! From a source text to what its program prints. -/
namespace Dez.Semantics
open Assembler Machine Toolchain

variable {capacity : ℕ} {stale : ℕ → Word → ℕ → Word} {input file : List Byte}
  {allocated : CArray Word capacity} {program : List Instr} {names : Names}
  {insts : List ParsedInstruction} {lines : List Line}
  {name : CString 63} {text : CString 255} {address v : Word} {words : List Word}

/-- The names that lines define. -/
def definedKeys (lines : List Line) : List (CString 63) := lines.filterMap Line.key

/-- What the first line that defines a name defines it as: the number of instructions before a
label, the value of a constant. -/
def standsFor (name : CString 63) : Word → List Line → Option Word
  | _, [] => none
  | address, .blank :: lines => standsFor name address lines
  | address, .label long _ :: lines =>
    if long.copy 63 = name then some address else standsFor name address lines
  | address, .constant long v _ :: lines =>
    if long.copy 63 = name then some v else standsFor name address lines
  | address, .instruction _ :: lines => standsFor name (address + 1#32) lines

/-- A text whose names and literals get what the symbol table, the file and the loader have for
them: each name is defined once, the literals fill whole words and fit the window, and the code ends
before it. -/
structure Proper (input : List Byte) : Prop where
  names : (definedKeys (readSource input).lines).Nodup
  distinct : ((literals (sourceInstructions input)).map stringKey).Nodup
  apart : ∀ text ∈ literals (sourceInstructions input),
    stringKey text ∉ definedKeys (readSource input).lines
  room : (definedKeys (readSource input).lines).length +
    (literals (sourceInstructions input)).length ≤ 1024
  aligned : ∀ text ∈ (literals (sourceInstructions input)).dropLast,
    4 ∣ (literalBytes text).length
  space : literalSpace (literals (sourceInstructions input)) ≤ 256
  code : sourceInstructions input ≠ []
  small : (sourceInstructions input).length ≤
    if literals (sourceInstructions input) = [] then 1024 else 64

section names

variable {first : SymbolTable × Word}

theorem definedKeys_cons_none {line : Line} (h : line.key = none) :
    definedKeys (line :: lines) = definedKeys lines := List.filterMap_cons_none h

theorem definedKeys_cons_some {line : Line} {key : CString 63} (h : line.key = some key) :
    definedKeys (line :: lines) = key :: definedKeys lines := List.filterMap_cons_some h

theorem length_symbols_add {table : SymbolTable} {raw : List Byte} {type : SymbolType}
    {address value : Word} {stringValue : Option (List Byte)} {line : ℕ} :
    (symbolTableAdd table raw type address value stringValue line).2.1.symbols.length ≤
      table.symbols.length + 1 := by
  rcases symbols_add with h | ⟨-, h⟩
  · rw [h]
    exact Nat.le_succ _
  · rw [h, List.length_append, List.length_singleton]

/-- A line that defines a name takes at most one entry. -/
theorem length_defineLine_le {line : Line} {key : CString 63} (h : line.key = some key) :
    (defineLine first line).1.symbols.length ≤ first.1.symbols.length + 1 := by
  cases line with
  | blank => cases h
  | instruction inst => cases h
  | label long number => exact length_symbols_add
  | constant long v number => exact length_symbols_add

theorem length_defineLines_le : (defineLines first lines).1.symbols.length ≤
    first.1.symbols.length + (definedKeys lines).length := by
  induction lines generalizing first with
  | nil => exact le_rfl
  | cons line lines ih =>
    apply (@ih (defineLine first line)).trans
    cases hkey : line.key with
    | none =>
      rw [definedKeys_cons_none hkey]
      cases line with
      | blank => exact le_rfl
      | instruction inst => exact le_rfl
      | label long number => cases hkey
      | constant long v number => cases hkey
    | some key =>
      have hone := @length_defineLine_le first line key hkey
      rw [definedKeys_cons_some hkey, List.length_cons]
      omega

theorem ne_key_of_notMem (h : name ∉ definedKeys lines) :
    ∀ line ∈ lines, line.key ≠ some name := by
  intro line hline hkey
  exact h (List.mem_filterMap.mpr ⟨line, hline, hkey⟩)

/-- With each name defined once and room for all, the table has for a name what it stands for. -/
theorem named_standsFor (hnew : first.1.named name = [])
    (hroom : first.1.symbols.length + (definedKeys lines).length ≤ 1024)
    (hnodup : (definedKeys lines).Nodup) (h : standsFor name first.2 lines = some v) :
    ∃ symbol, (defineLines first lines).1.named name = [symbol] ∧ symbol.address = v := by
  induction lines generalizing first with
  | nil => cases h
  | cons line lines ih =>
    have hone := fun key => @length_defineLine_le first line key
    cases line with
    | blank => exact @ih first hnew hroom hnodup h
    | instruction inst => exact @ih (first.1, first.2 + 1#32) hnew hroom hnodup h
    | label long number | constant long w number =>
      rw [definedKeys_cons_some rfl] at hroom hnodup
      rw [List.length_cons] at hroom
      obtain ⟨hnot, hrest⟩ := List.nodup_cons.mp hnodup
      have hfull : ¬ first.1.Full := by
        unfold SymbolTable.Full
        omega
      unfold standsFor at h
      by_cases hname : long.copy 63 = name
      · subst hname
        rw [if_pos rfl] at h
        cases h
        refine ⟨_, (named_defineLines (ne_key_of_notMem hnot)).trans (named_add_self hnew hfull),
          rfl⟩
      · rw [if_neg hname] at h
        refine @ih (defineLine first _) ((named_add_of_ne hname).trans hnew) ?_ hrest h
        have hroom' := hone (long.copy 63) rfl
        omega

end names

namespace Proper

theorem admits (h : Proper input) :
    (sourceTable symbolTableInit input).Admits (literals (sourceInstructions input)) := by
  refine ⟨?_, h.distinct, ?_⟩
  · intro text htext
    exact named_defineLines (ne_key_of_notMem (h.apart text htext))
  · have hle := @length_defineLines_le (readSource input).lines (symbolTableInit, 0#32)
    have hroom := h.room
    have hnone : (symbolTableInit, 0#32).1.symbols.length = 0 := rfl
    rw [sourceTable]
    omega

theorem entered (h : Proper input) : LiteralsEntered input := by
  have hadmits := h.admits
  refine ⟨?_, ?_, ?_⟩
  · intro text htext
    exact notMem_names.mpr (hadmits.new text htext)
  · intro s hs t ht hkey
    exact List.inj_on_of_nodup_map h.distinct hs ht hkey
  · have hcard := List.toFinset_card_le (literals (sourceInstructions input))
    have hroom := hadmits.room
    omega

end Proper

section file

/-- Short of 4 GiB the entries of literals follow their first address. -/
theorem le_address_of_allocate {texts : List (CString 255)} {sym : Symbol}
    (hspace : address.toNat + literalSpace texts < 2 ^ 32) (h : sym ∈ allocate address texts) :
    address.toNat ≤ sym.address.toNat := by
  induction texts generalizing address with
  | nil => cases h
  | cons text texts ih =>
    rw [literalSpace_cons] at hspace
    rcases List.mem_cons.mp h with rfl | hrest
    · exact le_rfl
    · have hnext : (address + BitVec.ofNat 32 (literalBytes text).length).toNat =
          address.toNat + (literalBytes text).length := by
        rw [BitVec.toNat_add, BitVec.toNat_ofNat]
        omega
      have hle := ih (by omega) hrest
      omega

namespace Proper

theorem strings (h : Proper input) (stale : ℕ → Word → ℕ → Word) {sym : Symbol}
    (hsym : sym ∈ textSymbols stale input) (hstring : sym.isString = true) :
    literals (sourceInstructions input) ≠ [] ∧ 0x100 ≤ sym.address.toNat := by
  have hstart : (sourceTable symbolTableInit input).nextStringAddr = 0x100#32 :=
    nextStringAddr_defineLines
  rw [textSymbols_eq stale h.admits, hstart, List.mem_append] at hsym
  rcases hsym with hold | hnew
  · have hmem := List.mem_filter.mpr ⟨hold, hstring⟩
    rw [filter_sourceTable] at hmem
    cases hmem
  · constructor
    · intro hnone
      rw [hnone] at hnew
      cases hnew
    · have hspace := h.space
      exact le_address_of_allocate (by rw [show (0x100#32).toNat = 256 from rfl]; omega) hnew

/-- The code ends before the literals. -/
theorem below (h : Proper input) {i : ℕ} (hi : i < (sourceInstructions input).length)
    (hl : literals (sourceInstructions input) ≠ []) : i < 64 := by
  have hsmall := h.small
  rw [if_neg hl] at hsmall
  omega

/-- The string step leaves the words of the text alone. -/
theorem front (h : Proper input) (hbytes : ∀ i (hi : i < words.length), ∀ k < 4,
      byteOf words[i] k = bufferByte stale input allocated (4 * i + k))
    {i : ℕ} (hi : i < words.length) (hw : i < (textWords stale input).length) :
    words[i] = (textWords stale input)[i] := by
  have hlen : (textWords stale input).length = (sourceInstructions input).length :=
    length_sourceWords
  apply word_ext
  intro k hk
  have hdiv : (4 * i + k) / 4 = i := by omega
  have hmod : (4 * i + k) % 4 = k := by omega
  have hp : (4 * i + k) / 4 < (textWords stale input).length := by omega
  have hnone : CArray.lastCopied (stringCopies (textSymbols stale input)) (4 * i + k) = none := by
    apply lastCopied_before
    intro copy hcopy
    obtain ⟨sym, hsym, rfl⟩ := List.mem_map.mp hcopy
    obtain ⟨hmem, hstring⟩ := List.mem_filter.mp hsym
    obtain ⟨hl, haddress⟩ := h.strings stale hmem hstring
    have hlow := h.below (hlen ▸ hw) hl
    dsimp only
    omega
  have hbyte := (bufferByte_eq_iff allocated hp).mpr fun c hc => by
    rw [hnone] at hc
    cases hc
  rw [hbytes i hi k hk, hbyte]
  simp only [hdiv, hmod]

/-- The loader leaves them alone too. -/
theorem loaded (h : Proper input) (hlen : words.length ≤ 1024) {i : ℕ} (hi : i < words.length)
    (hw : i < (sourceInstructions input).length) :
    loadedWord words (stringData (textSymbols stale input)) i = words[i] := by
  apply (word_eq_iff_byte i _).mpr
  intro k hk
  have hdiv : (4 * i + k) / 4 = i := by omega
  have hmod : (4 * i + k) % 4 = k := by omega
  have hout : ¬ (0x100 ≤ 4 * i + k ∧ 4 * i + k < 0x200 ∧
      4 * i + k - 0x100 < (stringData (textSymbols stale input)).length) := by
    rintro ⟨hlow, -, hdata⟩
    by_cases hl : literals (sourceInstructions input) = []
    · rw [stringData_text stale h.admits, hl] at hdata
      exact absurd hdata (Nat.not_lt_zero _)
    · have := h.below hw hl
      omega
  rw [byte_loadedMemory _ _ hlen, dif_neg hout, dif_pos (by omega)]
  simp only [hdiv, hmod]

end Proper

end file

end Dez.Semantics
