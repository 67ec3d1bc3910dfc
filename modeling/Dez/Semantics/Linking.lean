import Dez.Assembler.Concatenation
import Dez.Semantics.Source

/-! Two source texts, one behind the other, and the words of both. -/
namespace Dez.Semantics
open Assembler

variable {a b : List Byte} {lines first second : List Line} {name : CString 63}
  {inst : ParsedInstruction} {address v n : Word} {stale : ℕ → Word → ℕ → Word}

section unnumbered

@[simp] theorem key_unnumbered (line : Line) : line.unnumbered.key = line.key := by
  cases line <;> rfl

theorem instructions_unnumbered (lines : List Line) :
    instructions (lines.map Line.unnumbered) = instructions lines := by
  rw [instructions, instructions, List.filterMap_map]
  congr 1
  funext line
  cases line <;> rfl

theorem definedKeys_unnumbered (lines : List Line) :
    definedKeys (lines.map Line.unnumbered) = definedKeys lines := by
  rw [definedKeys, definedKeys, List.filterMap_map]
  exact congrArg (lines.filterMap ·) (funext key_unnumbered)

theorem standsFor_unnumbered (name : CString 63) (address : Word) (lines : List Line) :
    standsFor name address (lines.map Line.unnumbered) = standsFor name address lines := by
  induction lines generalizing address with
  | nil => rfl
  | cons line lines ih =>
    cases line with
    | blank => exact ih address
    | instruction inst => exact ih (address + 1#32)
    | label long number | constant long v number =>
      simp only [List.map_cons, Line.unnumbered, standsFor, ih]

end unnumbered

section names

/-- The first definition of the name is a label. -/
def isLabel (name : CString 63) : List Line → Bool
  | [] => false
  | .blank :: lines => isLabel name lines
  | .label long _ :: lines => if long.copy 63 = name then true else isLabel name lines
  | .constant long _ _ :: lines => if long.copy 63 = name then false else isLabel name lines
  | .instruction _ :: lines => isLabel name lines

/-- Labels move with the instructions before them, constants stay. -/
theorem standsFor_shift (name : CString 63) (address n : Word) (lines : List Line) :
    (standsFor name (address + n) lines).getD 0 = if isLabel name lines
      then (standsFor name address lines).getD 0 + n
      else (standsFor name address lines).getD 0 := by
  induction lines generalizing address with
  | nil => rfl
  | cons line lines ih =>
    cases line with
    | blank => exact ih address
    | instruction inst =>
      have hcomm : address + n + 1#32 = address + 1#32 + n := by ac_rfl
      unfold standsFor isLabel
      rw [hcomm, ih]
    | label long number | constant long v number =>
      unfold standsFor isLabel
      split
      · rfl
      · exact ih address

theorem standsFor_eq_none_iff : standsFor name address lines = none ↔ name ∉ definedKeys lines := by
  induction lines generalizing address with
  | nil => exact iff_of_true rfl List.not_mem_nil
  | cons line lines ih =>
    cases line with
    | blank => exact ih
    | instruction inst => exact ih
    | label long number | constant long v number =>
      rw [definedKeys_cons_some rfl, List.mem_cons, not_or]
      unfold standsFor
      split
      · rename_i hname
        exact iff_of_false (Option.some_ne_none _) fun h => h.1 hname.symm
      · rename_i hname
        rw [ih]
        exact (and_iff_right (Ne.symm hname)).symm

/-- The entries of a name have the address it stands for. -/
theorem named_addresses {start : SymbolTable × Word} (hnew : start.1.named name = [])
    (hroom : start.1.symbols.length + (definedKeys lines).length ≤ 1024)
    (hnodup : (definedKeys lines).Nodup) : ∃ symbol : Option Symbol,
      (defineLines start lines).1.named name = symbol.toList ∧
        symbol.map Symbol.address = standsFor name start.2 lines := by
  by_cases hin : name ∈ definedKeys lines
  · cases hv : standsFor name start.2 lines with
    | some v =>
      obtain ⟨symbol, hnamed, haddress⟩ := named_standsFor hnew hroom hnodup hv
      exact ⟨some symbol, hnamed, congrArg some haddress⟩
    | none => exact absurd hin (standsFor_eq_none_iff.mp hv)
  · refine ⟨none, (named_defineLines (ne_key_of_notMem hin)).trans hnew, ?_⟩
    exact (standsFor_eq_none_iff.mpr hin).symm

end names

section words

/-- The name whose address an instruction gets. -/
def refersTo (inst : ParsedInstruction) : Option (CString 63) :=
  match searchedOperand inst.type with
  | none => none
  | some i =>
    match inst.operand i with
    | .label name => some name
    | _ => none

/-- A word with its low twelve bits, where an address stands, moved. -/
def relocate (n word : Word) : Word := (word &&& 0xFFFFF000#32) ||| ((word + n) &&& 0x0FFF#32)

/-- The word of an instruction behind `n` others: it moves with the labels it refers to. -/
def moved (n : Word) (lines : List Line) (inst : ParsedInstruction) (word : Word) : Word :=
  match refersTo inst with
  | none => word
  | some name => if isLabel name lines then relocate n word else word

theorem relocate_encodeJump (type : DezInstructionType) (reg : Byte) (n v : Word) :
    relocate n (parserEncodeJump type reg v) = parserEncodeJump type reg (v + n) := by
  have hlow : (parserEncodeJump type reg v + n) &&& 0x0FFF#32 = (v + n) &&& 0x0FFF#32 := by
    have haddress := decodeImmediate_encodeJump type reg v
    apply BitVec.eq_of_toNat_eq
    rw [decodeImmediate, toNat_and_low _ 12 _ rfl] at haddress
    rw [toNat_and_low _ 12 _ rfl, toNat_and_low _ 12 _ rfl, BitVec.toNat_add, BitVec.toNat_add]
    omega
  have hhigh : parserEncodeJump type reg v &&& 0xFFFFF000#32 =
      parserEncodeSingle type ||| reg.setWidth 32 <<< 20 := by
    have hmask : ∀ j < 32, (0xFFFFF000#32).getLsbD j = decide (12 ≤ j) := by decide
    have hlowMask : ∀ j < 32, (0x0FFF#32).getLsbD j = decide (j < 12) := by decide
    apply BitVec.eq_of_getLsbD_eq
    intro j hj
    rw [BitVec.getLsbD_and, hmask j hj]
    by_cases h12 : 12 ≤ j
    · rw [parserEncodeJump, BitVec.getLsbD_or, BitVec.getLsbD_and, hlowMask j hj]
      simp [h12, Nat.not_lt.mpr h12]
    · have hzero := getLsbD_encodeJump type reg 0#32 (show j < 20 by omega)
      rw [parserEncodeJump, BitVec.zero_and, BitVec.or_zero, BitVec.getLsbD_zero,
        Bool.and_false] at hzero
      rw [hzero, decide_eq_false h12, Bool.and_false]
  rw [relocate, hlow, hhigh, parserEncodeJump]

theorem encode_refers (hl : inst.literal = none) (h : refersTo inst = some name) :
    ∃ reg, ∀ stale table, (parserEncodeInstruction stale table inst).1 =
      parserEncodeJump inst.type reg (addressOf table name).1 := by
  obtain ⟨type, operands⟩ := inst
  unfold refersTo at h
  cases hs : searchedOperand type with
  | none => simp [hs] at h
  | some i =>
    simp only [hs] at h
    have hop : ParsedInstruction.operand ⟨type, operands⟩ i = .label name := by
      revert h
      cases ParsedInstruction.operand ⟨type, operands⟩ i <;> simp
    cases type <;> cases hs
    all_goals
      simp only [parserEncodeInstruction, hop]
      exact ⟨_, fun stale table => rfl⟩

theorem encode_refers_none (hl : inst.literal = none) (h : refersTo inst = none)
    (stale : ℕ → Word) (table table' : SymbolTable) :
    (parserEncodeInstruction stale table inst).1 =
      (parserEncodeInstruction stale table' inst).1 := by
  obtain ⟨word, hword⟩ := encode_eq_search stale inst
  have hsearch : ∀ table, (inst.search table).1 = 0 := by
    intro table
    unfold ParsedInstruction.search
    unfold refersTo at h
    rw [hl]
    cases hs : searchedOperand inst.type with
    | none => rfl
    | some i =>
      rw [hs] at h
      dsimp only at h ⊢
      revert h
      cases inst.operand i with
      | label name => exact fun h => absurd h (Option.some_ne_none _)
      | _ => exact fun _ => rfl
  rw [(hword table).1, (hword table').1, hsearch, hsearch]

end words

section linking

/-- Texts that can be assembled as one: the first is read to its end, none has a string literal,
each defines a name once, and neither refers to a name of the other. -/
structure Linkable (a b : List Byte) : Prop where
  nul : 0#8 ∉ a
  known : Known (textItems a)
  complete : (readSource a).ending = .eof
  firstNames : (definedKeys (readSource a).lines).Nodup
  secondNames : (definedKeys (readSource b).lines).Nodup
  room : (definedKeys (readSource a).lines).length + (definedKeys (readSource b).lines).length ≤
    1024
  firstRefers : ∀ inst ∈ sourceInstructions a, ∀ name ∈ refersTo inst,
    name ∉ definedKeys (readSource b).lines
  secondRefers : ∀ inst ∈ sourceInstructions b, ∀ name ∈ refersTo inst,
    name ∉ definedKeys (readSource a).lines
  firstLiterals : literals (sourceInstructions a) = []
  secondLiterals : literals (sourceInstructions b) = []

/-- Both texts. -/
def together (a b : List Byte) : List Byte := a ++ newline :: b

/-- The words of a text behind `n` instructions. -/
def movedWords (n : Word) (b : List Byte) (words : List Word) : List Word :=
  List.zipWith (moved n (readSource b).lines) (sourceInstructions b) words

theorem literal_eq_none {insts : List ParsedInstruction} (h : literals insts = [])
    (hi : inst ∈ insts) : inst.literal = none := by
  cases hl : inst.literal with
  | none => rfl
  | some text =>
    have hmem : text ∈ literals insts := List.mem_filterMap.mpr ⟨inst, hi, hl⟩
    rw [h] at hmem
    cases hmem

theorem symbols_encodeAll {insts : List ParsedInstruction} {stale : Word → ℕ → Word}
    {table : SymbolTable} (h : ∀ inst ∈ insts, inst.literal = none) :
    (encodeAll stale address table insts).2.symbols = table.symbols := by
  induction insts generalizing address table with
  | nil => rfl
  | cons inst insts ih =>
    obtain ⟨hinst, hrest⟩ := List.forall_mem_cons.mp h
    have hsymbols := (encode_table (stale address) table inst).1
    rw [hinst] at hsymbols
    exact (ih hrest).trans hsymbols

/-- Without literals a name has the same address at every instruction. -/
theorem addressOf_tableBefore {input : List Byte} {symbol : Option Symbol} (i : ℕ)
    (h : literals (sourceInstructions input) = [])
    (hnamed : (sourceTable symbolTableInit input).named name = symbol.toList) :
    (addressOf (tableBefore stale symbolTableInit input i) name).1 =
      (symbol.map Symbol.address).getD 0 := by
  have hsymbols : (tableBefore stale symbolTableInit input i).symbols =
      (sourceTable symbolTableInit input).symbols :=
    symbols_encodeAll fun inst hi => literal_eq_none h (List.mem_of_mem_take hi)
  have hsame : (tableBefore stale symbolTableInit input i).named name = symbol.toList := by
    rw [SymbolTable.named, hsymbols]
    exact hnamed
  rw [addressOf_named hsame]
  cases symbol <;> rfl

/-- What a name stands for in a text is its address. -/
theorem addressOf_alone {input : List Byte} (i : ℕ)
    (h : literals (sourceInstructions input) = [])
    (hnames : (definedKeys (readSource input).lines).Nodup)
    (hroom : (definedKeys (readSource input).lines).length ≤ 1024) (name : CString 63) :
    (addressOf (tableBefore stale symbolTableInit input i) name).1 =
      (standsFor name 0#32 (readSource input).lines).getD 0 := by
  have hstart : (symbolTableInit, 0#32).1.symbols.length = 0 := rfl
  obtain ⟨symbol, hnamed, haddress⟩ := @named_addresses (readSource input).lines name
    (symbolTableInit, 0#32) rfl (by omega) hnames
  rw [addressOf_tableBefore i h hnamed, haddress]

namespace Linkable

theorem inOrder (h : Linkable a b) : ∃ lines,
    (readSource (together a b)).lines = (readSource a).lines ++ .blank :: lines ∧
      instructions lines = sourceInstructions b ∧
      definedKeys lines = definedKeys (readSource b).lines ∧
      ∀ name address, standsFor name address lines =
        standsFor name address (readSource b).lines := by
  obtain ⟨lines, hlines, hsame, -⟩ := readSource_append h.nul h.known h.complete b
  refine ⟨lines, hlines, ?_, ?_, fun name address => ?_⟩
  · rw [← instructions_unnumbered, hsame, instructions_unnumbered, sourceInstructions]
  · rw [← definedKeys_unnumbered, hsame, definedKeys_unnumbered]
  · rw [← standsFor_unnumbered, hsame, standsFor_unnumbered]

theorem instructions (h : Linkable a b) :
    sourceInstructions (together a b) = sourceInstructions a ++ sourceInstructions b := by
  obtain ⟨lines, hlines, hinsts, -⟩ := h.inOrder
  rw [sourceInstructions, hlines, Assembler.instructions, List.filterMap_append,
    List.filterMap_cons_none rfl]
  exact congrArg (sourceInstructions a ++ ·) hinsts

theorem literals (h : Linkable a b) : literals (sourceInstructions (together a b)) = [] := by
  rw [h.instructions, Assembler.literals, List.filterMap_append]
  exact List.append_eq_nil_iff.mpr ⟨h.firstLiterals, h.secondLiterals⟩

/-- A name of the first text has the address it has there alone. -/
theorem addressOf_first (h : Linkable a b) (i : ℕ)
    (hname : name ∉ definedKeys (readSource b).lines) :
    (addressOf (tableBefore stale symbolTableInit (together a b) i) name).1 =
      (standsFor name 0#32 (readSource a).lines).getD 0 := by
  obtain ⟨lines, hlines, -, hkeys, -⟩ := h.inOrder
  have hroom := h.room
  obtain ⟨symbol, hnamed, haddress⟩ := @named_addresses (readSource a).lines name
    (symbolTableInit, 0#32) rfl (by simp only [symbolTableInit, List.length_nil]; omega)
    h.firstNames
  let start := defineLines (symbolTableInit, 0#32) (readSource a).lines
  have hkept : (defineLines start lines).1.named name = start.1.named name :=
    named_defineLines (ne_key_of_notMem (hkeys ▸ hname))
  have htable : (sourceTable symbolTableInit (together a b)).named name = symbol.toList := by
    rw [sourceTable, hlines, defineLines_append]
    exact hkept.trans hnamed
  rw [addressOf_tableBefore i h.literals htable, haddress]

/-- A name of the second stands for what it does behind the first. -/
theorem addressOf_second (h : Linkable a b) (i : ℕ)
    (hname : name ∉ definedKeys (readSource a).lines) :
    (addressOf (tableBefore stale symbolTableInit (together a b) i) name).1 =
      (standsFor name (BitVec.ofNat 32 (sourceInstructions a).length) (readSource b).lines).getD
        0 := by
  obtain ⟨lines, hlines, -, hkeys, hstands⟩ := h.inOrder
  let start := defineLines (symbolTableInit, 0#32) (readSource a).lines
  have hnew : start.1.named name = [] := named_defineLines (ne_key_of_notMem hname)
  have hlength : start.1.symbols.length ≤ 0 + (definedKeys (readSource a).lines).length :=
    length_defineLines_le
  have hroom := h.room
  have haddress : start.2 = BitVec.ofNat 32 (sourceInstructions a).length :=
    defineLines_address.trans (BitVec.zero_add _)
  obtain ⟨symbol, hnamed, hstand⟩ := @named_addresses lines name start hnew
    (by rw [hkeys]; omega) (hkeys ▸ h.secondNames)
  have htable : (sourceTable symbolTableInit (together a b)).named name = symbol.toList := by
    rw [sourceTable, hlines, defineLines_append]
    exact hnamed
  rw [addressOf_tableBefore i h.literals htable, hstand, haddress, hstands]

/-- An instruction of the first text is encoded as it is alone. -/
theorem encode_first (h : Linkable a b) (hi : inst ∈ sourceInstructions a) (i : ℕ)
    (bits : ℕ → Word) :
    (parserEncodeInstruction bits (tableBefore stale symbolTableInit (together a b) i) inst).1 =
      (parserEncodeInstruction bits (tableBefore stale symbolTableInit a i) inst).1 := by
  have hroom := h.room
  have hliteral := literal_eq_none h.firstLiterals hi
  cases hr : refersTo inst with
  | none => exact encode_refers_none hliteral hr _ _ _
  | some name =>
    obtain ⟨reg, hencode⟩ := encode_refers hliteral hr
    rw [hencode, hencode, h.addressOf_first i (h.firstRefers _ hi name hr),
      addressOf_alone i h.firstLiterals h.firstNames (by omega)]

/-- One of the second is moved with the label it refers to. -/
theorem encode_second (h : Linkable a b) (hi : inst ∈ sourceInstructions b) (i j : ℕ)
    (bits : ℕ → Word) (stale' : ℕ → Word → ℕ → Word) :
    (parserEncodeInstruction bits (tableBefore stale symbolTableInit (together a b) i) inst).1 =
      moved (BitVec.ofNat 32 (sourceInstructions a).length) (readSource b).lines inst
        (parserEncodeInstruction bits (tableBefore stale' symbolTableInit b j) inst).1 := by
  have hroom := h.room
  have hliteral := literal_eq_none h.secondLiterals hi
  unfold moved
  cases hr : refersTo inst with
  | none => exact encode_refers_none hliteral hr _ _ _
  | some name =>
    obtain ⟨reg, hencode⟩ := encode_refers hliteral hr
    have hshift := standsFor_shift name 0#32 (BitVec.ofNat 32 (sourceInstructions a).length)
      (readSource b).lines
    rw [BitVec.zero_add] at hshift
    dsimp only
    rw [hencode, hencode, h.addressOf_second i (h.secondRefers _ hi name hr), hshift,
      addressOf_alone j h.secondLiterals h.secondNames (by omega), relocate_encodeJump]
    exact apply_ite _ _ _ _

/-- The words of two texts together: those of the first, and those of the second with its labels
moved. -/
theorem words (h : Linkable a b) (stale : ℕ → Word → ℕ → Word) :
    textWords stale (together a b) = textWords stale a ++
      movedWords (BitVec.ofNat 32 (sourceInstructions a).length) b
        (textWords (fun pass address => stale pass
          (address + BitVec.ofNat 32 (sourceInstructions a).length)) b) := by
  apply List.ext_getElem?
  intro i
  by_cases hi : i < (sourceInstructions a).length
  · have hinst : (sourceInstructions (together a b))[i]? = some (sourceInstructions a)[i] := by
      rw [h.instructions, List.getElem?_append_left hi, List.getElem?_eq_getElem hi]
    have htogether := sourceWords_getElem stale symbolTableInit hinst
    have halone := sourceWords_getElem stale symbolTableInit (List.getElem?_eq_getElem hi)
    rw [h.encode_first (List.getElem_mem hi)] at htogether
    rw [List.getElem?_append_left (by rw [length_sourceWords]; exact hi)]
    exact htogether.trans halone.symm
  · obtain ⟨j, rfl⟩ := Nat.exists_eq_add_of_le (Nat.not_lt.mp hi)
    have hlength : (textWords stale a).length = (sourceInstructions a).length :=
      length_sourceWords
    have htotal : (textWords stale (together a b)).length =
        (sourceInstructions (together a b)).length := length_sourceWords
    have hinst : (sourceInstructions (together a b))[(sourceInstructions a).length + j]? =
        (sourceInstructions b)[j]? := by
      rw [h.instructions, List.getElem?_append_right (Nat.le_add_right _ _),
        Nat.add_sub_cancel_left]
    rw [List.getElem?_append_right (by omega), hlength, Nat.add_sub_cancel_left, movedWords,
      List.getElem?_zipWith]
    cases hj : (sourceInstructions b)[j]? with
    | none =>
      rw [hj, List.getElem?_eq_none_iff, ← htotal] at hinst
      exact List.getElem?_eq_none hinst
    | some inst =>
      rw [hj] at hinst
      have htogether := sourceWords_getElem stale symbolTableInit hinst
      have halone := sourceWords_getElem (fun pass address => stale pass
        (address + BitVec.ofNat 32 (sourceInstructions a).length)) symbolTableInit hj
      rw [h.encode_second (List.mem_of_getElem? hj) _ j, BitVec.ofNat_add, BitVec.add_comm]
        at htogether
      rw [halone]
      exact htogether

end Linkable

/-- A text that is written was read without an error, and its words have room. -/
theorem read_of_writesBinary {capacity : ℕ} {input file : List Byte}
    {allocated : CArray Word capacity} (hwrite : WritesBinary stale input allocated file) :
    (readSource input).ending ≠ .failed ∧ (sourceInstructions input).length ≤ capacity := by
  obtain ⟨verbose, inputFile, outputFile, -, h⟩ := hwrite
  obtain ⟨assembler, h⟩ := writtenFile_eq_some h
  obtain ⟨⟨success, assembled⟩, hstring, h⟩ := bind_eq_ok h
  cases success with
  | false => cases h
  | true =>
    obtain ⟨hread, hroom, -⟩ :=
      (assembleString_succeeds_iff stale (symbolTable_note _)).mp ⟨_, hstring⟩
    exact ⟨hread, hroom⟩

/-- Two texts assembled as one give one file, if its words have room: the words of the file of the
first, and those of the second with each reference to a label of the second moved by the words in
front. -/
theorem linked_file {capacity : ℕ} {fileA fileB : List Byte}
    {allocatedA allocatedB : CArray Word capacity} (h : Linkable a b)
    (stale : ℕ → Word → ℕ → Word) (hfirst : WritesBinary stale a allocatedA fileA)
    (hsecond : WritesBinary (fun pass address => stale pass
      (address + BitVec.ofNat 32 (sourceInstructions a).length)) b allocatedB fileB)
    (allocated : CArray Word capacity) (file : List Byte) :
    ∃ wordsA wordsB, fileA = programFile wordsA [] ∧ fileB = programFile wordsB [] ∧
      (WritesBinary stale (together a b) allocated file ↔
        wordsA.length + wordsB.length ≤ capacity ∧
        file = programFile
          (wordsA ++ movedWords (BitVec.ofNat 32 wordsA.length) b wordsB) []) := by
  have hlength : ∀ (stale : ℕ → Word → ℕ → Word) (input : List Byte),
      (textWords stale input).length = (sourceInstructions input).length :=
    fun stale input => length_sourceWords
  have htotal : (sourceInstructions (together a b)).length =
      (sourceInstructions a).length + (sourceInstructions b).length := by
    rw [h.instructions, List.length_append]
  obtain ⟨lines, -, -, hending⟩ := readSource_append h.nul h.known h.complete b
  refine ⟨_, _, file_of_no_literals hfirst h.firstLiterals,
    file_of_no_literals hsecond h.secondLiterals, ?_⟩
  rw [hlength, hlength, ← h.words stale, ← htotal]
  constructor
  · intro hwrite
    exact ⟨(read_of_writesBinary hwrite).2, file_of_no_literals hwrite h.literals⟩
  · rintro ⟨hroom, rfl⟩
    have hread : (readSource (together a b)).ending ≠ .failed := by
      rw [together, hending]
      exact (read_of_writesBinary hsecond).1
    exact writesBinary_of_no_literals stale allocated hread hroom h.literals

/-- A file without string data has its words. -/
theorem words_of_programFile {words words' : List Word}
    (h : programFile words [] = programFile words' []) : words = words' := by
  have hbytes := congrArg List.length h
  simp only [programFile, List.append_nil, List.length_append, length_flatMap_wordBytes,
    wordBytes, List.length_cons, List.length_nil] at hbytes
  simp only [programFile, List.append_assoc] at h
  exact (flatMap_wordBytes_inj (by omega) (wordBytes_append_inj h).2).1

/-- Two loops, each with a label of its own. -/
def waitLoop : List Byte := bytes "wait:\nJZ wait"

def countLoop : List Byte := bytes "count:\nDEC R1\nJNZ count\nHALT"

theorem linkable_loops : Linkable waitLoop countLoop where
  nul := by decide +kernel
  known := by unfold Known; decide +kernel
  complete := by decide +kernel
  firstNames := by decide +kernel
  secondNames := by decide +kernel
  room := by decide +kernel
  firstRefers := by decide +kernel
  secondRefers := by decide +kernel
  firstLiterals := by decide +kernel
  secondLiterals := by decide +kernel

theorem writesBinary_waitLoop : WritesBinary (fun _ _ _ => 0) waitLoop (fun _ : Fin 8 => 0)
    (programFile [0x09000000#32] []) :=
  ⟨false, [], bytes "a.dez", by decide, by decide +kernel⟩

theorem writesBinary_countLoop : WritesBinary (fun _ _ _ => 0) countLoop (fun _ : Fin 8 => 0)
    (programFile [0x1E100000#32, 0x0A000000#32, 0#32] []) :=
  ⟨false, [], bytes "a.dez", by decide, by decide +kernel⟩

theorem linked_file_loops : WritesBinary (fun _ _ _ => 0) (together waitLoop countLoop)
    (fun _ : Fin 8 => 0)
    (programFile [0x09000000#32, 0x1E100000#32, 0x0A000001#32, 0#32] []) := by
  obtain ⟨wordsA, wordsB, hfirst, hsecond, hlinked⟩ := linked_file linkable_loops
    (fun _ _ _ => 0) writesBinary_waitLoop writesBinary_countLoop (fun _ => 0)
    (programFile [0x09000000#32, 0x1E100000#32, 0x0A000001#32, 0#32] [])
  obtain rfl := words_of_programFile hfirst
  obtain rfl := words_of_programFile hsecond
  exact hlinked.mpr ⟨by decide, by decide +kernel⟩

end linking

end Dez.Semantics
