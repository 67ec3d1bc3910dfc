import Dez.Assembler.Undefined
import Dez.Assembler.Determinism

/-! Where the string step copies the literals of a text to, and the end of the buffer. -/
namespace Dez.Assembler
variable {capacity : ℕ} {names : List (CString 63)} {address : Word} {text : CString 255}
  {texts : List (CString 255)} {table : SymbolTable} {symbols : List Symbol} {input : List Byte}
  {place : Word × CString 255} {places : List (Word × CString 255)}

/-- The literals that get entries, with their addresses. A literal without an entry, because its
name is taken or there is no room, moves the next address too. -/
def placeLiterals (names : List (CString 63)) (address : Word) :
    List (CString 255) → List (Word × CString 255)
  | [] => []
  | text :: texts =>
    let next := address + BitVec.ofNat 32 (literalBytes text).length
    if names.length < 1024 ∧ stringKey text ∉ names then
      (address, text) :: placeLiterals (names ++ [stringKey text]) next texts
    else placeLiterals names next texts

/-- The literals of a text that get entries beside its labels and constants. -/
def storedLiterals (input : List Byte) : List (Word × CString 255) :=
  placeLiterals ((sourceTable symbolTableInit input).symbols.map Symbol.name) 0x100#32
    (literals (sourceInstructions input))

theorem takes_key_iff : table.Takes (stringKey text).chars ↔
    (table.symbols.map Symbol.name).length < 1024 ∧
      stringKey text ∉ table.symbols.map Symbol.name := by
  rw [SymbolTable.Takes, List.length_map, List.mem_map]
  apply and_congr_right
  intro _
  constructor
  · rintro hnew ⟨sym, hsym, hname⟩
    exact hnew sym hsym (congrArg CString.chars hname)
  · intro hnew sym hsym hname
    exact hnew ⟨sym, hsym, CString.ext_chars hname⟩

/-- The entries of the literals follow those that are there, in the order of the text. -/
theorem symbols_defineLiterals (table : SymbolTable) (texts : List (CString 255)) :
    (texts.foldl defineLiteral table).symbols = table.symbols ++
      (placeLiterals (table.symbols.map Symbol.name) table.nextStringAddr texts).map
        fun place => literalEntry place.1 place.2 := by
  induction texts generalizing table with
  | nil => exact (List.append_nil _).symm
  | cons text texts ih =>
    rw [List.foldl_cons, ih, nextStringAddr_defineLiteral, placeLiterals]
    by_cases htakes : table.Takes (stringKey text).chars
    · have hallocated :
          (symbolTableAllocateString table text.chars).2.Takes (stringKey text).chars := htakes
      have hsymbols : (defineLiteral table text).symbols =
          table.symbols ++ [literalEntry table.nextStringAddr text] :=
        symbols_add_of_takes hallocated
      rw [if_pos (takes_key_iff.mp htakes), hsymbols]
      simp [name_literalEntry]
    · have hallocated :
          ¬ (symbolTableAllocateString table text.chars).2.Takes (stringKey text).chars := htakes
      have hsymbols : (defineLiteral table text).symbols = table.symbols :=
        symbols_add_of_not_takes hallocated
      rw [if_neg (mt takes_key_iff.mpr htakes), hsymbols]

/-- The strings among the entries of a text are its stored literals. -/
theorem strings_literalTable : (literalTable symbolTableInit input).symbols.filter Symbol.isString =
    (storedLiterals input).map fun place => literalEntry place.1 place.2 := by
  have hall : ∀ sym ∈ (storedLiterals input).map fun place => literalEntry place.1 place.2,
      sym.isString = true := by
    intro sym hsym
    obtain ⟨place, -, rfl⟩ := List.mem_map.mp hsym
    rfl
  have hstart : (sourceTable symbolTableInit input).nextStringAddr = 0x100#32 :=
    nextStringAddr_defineLines
  rw [literalTable, symbols_defineLiterals, List.filter_append, filter_sourceTable, hstart]
  exact List.filter_eq_self.mpr hall

section room

/-- The check lets the literal through: its end, in bytes, is not past the buffer. -/
def Passes (capacity : ℕ) (place : Word × CString 255) : Prop :=
  (place.1 + BitVec.ofNat 32 (literalBytes place.2).length).toNat ≤ capacity * 4

/-- The buffer has room for the literal where it is copied to: its address counts words there. -/
def HasRoom (capacity : ℕ) (place : Word × CString 255) : Prop :=
  4 * place.1.toNat + (literalBytes place.2).length ≤ 4 * capacity

/-- Each literal the copying comes to has room if it passes the check. -/
def RoomIfPassed (capacity : ℕ) (places : List (Word × CString 255)) : Prop :=
  ∀ before place after, places = before ++ place :: after →
    (∀ passed ∈ before ++ [place], Passes capacity passed) → HasRoom capacity place

theorem roomIfPassed_cons : RoomIfPassed capacity (place :: places) ↔
    (Passes capacity place → HasRoom capacity place ∧ RoomIfPassed capacity places) := by
  constructor
  · intro h hpass
    constructor
    · exact h [] place places rfl (by simpa using hpass)
    · intro before next after hsplit hpassed
      apply h (place :: before) next after (congrArg (place :: ·) hsplit)
      rw [List.cons_append, List.forall_mem_cons]
      exact ⟨hpass, hpassed⟩
  · intro h before next after hsplit hpassed
    cases before with
    | nil =>
      obtain ⟨rfl, -⟩ := List.cons.inj hsplit
      exact (h (hpassed place (by simp))).1
    | cons first before =>
      obtain ⟨rfl, hrest⟩ := List.cons.inj hsplit
      rw [List.cons_append, List.forall_mem_cons] at hpassed
      exact (h hpassed.1).2 before next after hrest hpassed.2

theorem stringsFit_filter :
    StringsFit capacity symbols ↔ StringsFit capacity (symbols.filter Symbol.isString) := by
  simp [StringsFit]

theorem exceeds_filter :
    Exceeds capacity (symbols.filter Symbol.isString) ↔ Exceeds capacity symbols := by
  simp [Exceeds]

theorem stringsFit_cons {sym : Symbol} (hs : sym.isString = true) :
    StringsFit capacity (sym :: symbols) ↔ (sym.endAddr.toNat ≤ capacity * 4 ∧
      4 * sym.address.toNat + sym.text.length ≤ 4 * capacity) ∧ StringsFit capacity symbols := by
  unfold StringsFit
  rw [List.forall_mem_cons]
  exact and_congr_left fun _ => forall_prop_of_true hs

/-- Then the step ends, with all literals copied or at the first that does not pass. -/
theorem roomIfPassed_iff : RoomIfPassed capacity places ↔
    StringsFit capacity (places.map fun place => literalEntry place.1 place.2) ∨
      Exceeds capacity (places.map fun place => literalEntry place.1 place.2) := by
  induction places with
  | nil =>
    refine iff_of_true ?_ (.inl ?_)
    · intro before place after hsplit
      exact absurd hsplit.symm (List.append_ne_nil_of_right_ne_nil before (List.cons_ne_nil _ _))
    · intro sym hsym
      cases hsym
  | cons place places ih =>
    have hend : (literalEntry place.1 place.2).endAddr =
        place.1 + BitVec.ofNat 32 (literalBytes place.2).length := by
      rw [Symbol.endAddr, text_literalEntry]
      rfl
    have hroom : 4 * (literalEntry place.1 place.2).address.toNat +
        (literalEntry place.1 place.2).text.length ≤ 4 * capacity ↔ HasRoom capacity place := by
      rw [text_literalEntry]
      rfl
    rw [roomIfPassed_cons, ih, List.map_cons, exceeds_cons rfl, stringsFit_cons rfl, hroom, hend]
    by_cases hpass : Passes capacity place
    · have hnot : ¬ capacity * 4 <
          (place.1 + BitVec.ofNat 32 (literalBytes place.2).length).toNat := Nat.not_lt.mpr hpass
      rw [forall_prop_of_true hpass, or_iff_right hnot, and_iff_right (Nat.not_lt.mp hnot),
        and_or_left]
    · exact iff_of_true (fun h => absurd h hpass) (.inr (.inl (Nat.not_le.mp hpass)))

end room

section assembled

variable {stale : ℕ → Word → ℕ → Word} {start assembler : DezAssembler capacity} {success : Bool}
  {allocated : CArray Word capacity} {verbose : Bool}

/-- `assembler_assemble_string` returns, no copy having gone past the buffer; the size it ends with
is within the capacity, and it returns false when a literal ends past the buffer. -/
def StringDataInside (stale : ℕ → Word → ℕ → Word) (start : DezAssembler capacity)
    (input : List Byte) : Prop :=
  ∃ success assembler, assemblerAssembleString stale start input = .ok (success, assembler) ∧
    assembler.outputSize ≤ capacity ∧
    ((∃ place ∈ storedLiterals input,
      4 * capacity < place.1.toNat + (literalBytes place.2).length) → success = false)

theorem outputSize_le (h : assemblerAssembleString stale start input = .ok (success, assembler))
    (hparse :
      (parserParse stale (parserInit input start.symbolTable start.outputBuffer)).1 = true) :
    assembler.outputSize ≤ capacity := by
  unfold assemblerAssembleString at h
  simp only [symbolTable_note, outputBuffer_note] at h
  generalize parserParse stale (parserInit input start.symbolTable start.outputBuffer) = parsed at *
  obtain ⟨parsedAll, parser⟩ := parsed
  obtain rfl : parsedAll = true := hparse
  obtain ⟨⟨done, after⟩, -, h⟩ := bind_eq_ok h
  obtain ⟨words, hwords, h⟩ := bind_eq_ok h
  cases h
  rw [outputSize_note]
  exact (CArray.readFront_ok hwords).1

/-- The strings of an accepted text raise its size no further than the buffer. -/
theorem raisedSize_of_fit {size : ℕ} (hsize : size ≤ capacity) (h : StringsFit capacity symbols) :
    raisedSize size symbols ≤ capacity := by
  rw [raisedSize_le_iff]
  refine ⟨hsize, ?_⟩
  intro sym hsym hs
  have hend := (h sym hsym hs).1
  unfold Symbol.endWord
  omega

theorem textSymbols_literalTable (stale : ℕ → Word → ℕ → Word) (input : List Byte) :
    textSymbols stale input = (literalTable symbolTableInit input).symbols :=
  (encodeAll_entries (stale 2) 0#32 (sourceInstructions input) ⟨rfl, rfl⟩).1

/-- The string data of an accepted text stays inside the buffer if and only if each literal that
passes the check, after others that pass, has room at the word its address is the index of. -/
theorem stringDataInside_iff (capacity : ℕ) (stale : ℕ → Word → ℕ → Word) (verbose : Bool)
    (allocated : CArray Word capacity) (input : List Byte)
    (h : (parserParse stale (parserInit input symbolTableInit allocated)).1 = true) :
    StringDataInside stale (assemblerInit verbose allocated) input ↔
      RoomIfPassed capacity (storedLiterals input) := by
  obtain ⟨hread, hlen⟩ := (parserParse_iff stale symbolTableInit allocated input).mp h
  have hsucceeds := @assembleString_succeeds_iff _ input stale (assemblerInit verbose allocated) rfl
  have hrefused := assembleString_refused_iff stale (assemblerInit verbose allocated) input
  rw [textSymbols_literalTable] at hsucceeds
  rw [roomIfPassed_iff, ← strings_literalTable, ← stringsFit_filter, exceeds_filter]
  constructor
  · rintro ⟨success, assembler, hrun, -⟩
    cases success with
    | true => exact .inl (hsucceeds.mp ⟨assembler, hrun⟩).2.2.1
    | false =>
      rcases hrefused.mp ⟨assembler, hrun⟩ with hfailed | hlong | hexceeds
      · exact absurd hfailed hread
      · omega
      · exact .inr hexceeds
  · rintro (hfit | hexceeds)
    · obtain ⟨assembler, hrun⟩ :=
        hsucceeds.mpr ⟨hread, hlen, hfit, raisedSize_of_fit hlen hfit⟩
      refine ⟨true, assembler, hrun, outputSize_le hrun h, ?_⟩
      rintro ⟨place, hplace, hpast⟩
      have hentry : literalEntry place.1 place.2 ∈
          (literalTable symbolTableInit input).symbols.filter Symbol.isString := by
        rw [strings_literalTable]
        exact List.mem_map.mpr ⟨place, hplace, rfl⟩
      obtain ⟨hmem, hs⟩ := List.mem_filter.mp hentry
      have hroom := (hfit (literalEntry place.1 place.2) hmem hs).2
      have haddress : (literalEntry place.1 place.2).address = place.1 := rfl
      rw [text_literalEntry, haddress] at hroom
      omega
    · obtain ⟨assembler, hrun⟩ := hrefused.mpr (.inr (.inr hexceeds))
      exact ⟨false, assembler, hrun, outputSize_le hrun h, fun _ => rfl⟩

/-- One literal, in the smallest buffer with a place for it. -/
theorem stringDataInside_iff_literal :
    (parserParse (fun _ _ _ => 0) (parserInit (bytes "MOV R0, \"a\"") symbolTableInit
      fun _ : Fin 257 => 0)).1 = true ∧
    (StringDataInside (fun _ _ _ => 0) (assemblerInit false fun _ : Fin 257 => 0)
      (bytes "MOV R0, \"a\"") ↔ RoomIfPassed 257 (storedLiterals (bytes "MOV R0, \"a\""))) :=
  ⟨by decide, stringDataInside_iff 257 _ _ _ _ (by decide)⟩

/-- In a buffer of 100 words the literal passes the check, as 258 bytes are no more than 400, and is
copied to byte 1024. -/
theorem string_copied_outside : ¬ ∀ (capacity : ℕ) stale verbose (allocated : CArray Word capacity)
    input, (parserParse stale (parserInit input symbolTableInit allocated)).1 = true →
      StringDataInside stale (assemblerInit verbose allocated) input := by
  intro h
  obtain ⟨success, assembler, hrun, -⟩ := h 100 (fun _ _ _ => 0) false (fun _ => 0)
    (bytes "MOV R0, \"a\"") (by decide)
  have hfault : (assemblerAssembleString (fun _ _ _ => 0)
      (assemblerInit false fun _ : Fin 100 => 0) (bytes "MOV R0, \"a\"")).toOption.isNone := by
    decide
  rw [hrun] at hfault
  cases hfault

end assembled

end Dez.Assembler
