import Dez.Assembler.Symbols
import Dez.Assembler.Format

/-! The addresses the symbol table gives string literals that are new to it. -/
namespace Dez.Assembler
variable {table other : SymbolTable} {text : CString 255} {texts more : List (CString 255)}
  {insts : List ParsedInstruction}

/-- The string literals that instructions load, in order. -/
def literals (insts : List ParsedInstruction) : List (CString 255) :=
  insts.filterMap ParsedInstruction.literal

/-- The entries and the next string address agree; the caches need not. -/
def SameEntries (table other : SymbolTable) : Prop :=
  table.symbols = other.symbols ∧ table.nextStringAddr = other.nextStringAddr

theorem defineLiteral_congr (text : CString 255) (h : SameEntries table other) :
    SameEntries (defineLiteral table text) (defineLiteral other text) := by
  obtain ⟨hsymbols, hnext⟩ := h
  have hlast : ∀ table : SymbolTable, (defineLiteral table text).nextStringAddr =
      table.nextStringAddr + BitVec.ofNat 32 (text.chars.length + 1) :=
    fun table => nextStringAddr_add
  refine ⟨?_, by rw [hlast, hlast, hnext]⟩
  by_cases htakes : (symbolTableAllocateString table text.chars).2.Takes (stringKey text).chars
  · have htakes' : (symbolTableAllocateString other text.chars).2.Takes (stringKey text).chars := by
      unfold SymbolTable.Takes at *
      rwa [show (symbolTableAllocateString other text.chars).2.symbols =
        (symbolTableAllocateString table text.chars).2.symbols from hsymbols.symm]
    refine (symbols_add_of_takes htakes).trans (Eq.trans ?_ (symbols_add_of_takes htakes').symm)
    change table.symbols ++ [newEntry _ _ table.nextStringAddr _ _ _] =
      other.symbols ++ [newEntry _ _ other.nextStringAddr _ _ _]
    rw [hsymbols, hnext]
  · have htakes' : ¬ (symbolTableAllocateString other text.chars).2.Takes
        (stringKey text).chars := by
      unfold SymbolTable.Takes at *
      rwa [show (symbolTableAllocateString other text.chars).2.symbols =
        (symbolTableAllocateString table text.chars).2.symbols from hsymbols.symm]
    exact (symbols_add_of_not_takes htakes).trans
      (hsymbols.trans (symbols_add_of_not_takes htakes').symm)

/-- The second pass only defines the literals, one after the other. -/
theorem encodeAll_entries (stale : Word → ℕ → Word) (address : Word)
    (insts : List ParsedInstruction) (h : SameEntries table other) :
    SameEntries (encodeAll stale address table insts).2
      ((literals insts).foldl defineLiteral other) := by
  induction insts generalizing table other address with
  | nil => exact h
  | cons inst insts ih =>
    have hencode := encode_table (stale address) table inst
    cases hl : inst.literal with
    | none =>
      have hrest : literals (inst :: insts) = literals insts := List.filterMap_cons_none hl
      rw [hl] at hencode
      rw [hrest]
      exact ih (address + 1#32) ⟨hencode.1.trans h.1, hencode.2.trans h.2⟩
    | some text =>
      have hrest : literals (inst :: insts) = text :: literals insts :=
        List.filterMap_cons_some hl
      have hdefine := defineLiteral_congr text h
      rw [hl] at hencode
      rw [hrest]
      exact ih (address + 1#32) ⟨hencode.1.trans hdefine.1, hencode.2.trans hdefine.2⟩

/-- A text's bytes with the terminator. -/
def literalBytes (text : CString 255) : List Byte := text.chars ++ [0#8]

/-- The bytes literals take without padding. -/
def literalSpace (texts : List (CString 255)) : ℕ :=
  (texts.map fun text => (literalBytes text).length).sum

theorem literalSpace_split (first : List (CString 255)) (text : CString 255)
    (rest : List (CString 255)) : literalSpace (first ++ text :: rest) =
      literalSpace first + (literalBytes text).length + literalSpace rest := by
  simp [literalSpace, Nat.add_assoc]

/-- The entry of a literal. -/
def literalEntry (address : Word) (text : CString 255) : Symbol :=
  newEntry (stringKey text).chars .string address 0 (some text.chars) 0

/-- The entries of literals whose addresses follow each other without padding. -/
def allocate (address : Word) : List (CString 255) → List Symbol
  | [] => []
  | text :: texts =>
    literalEntry address text ::
      allocate (address + BitVec.ofNat 32 (literalBytes text).length) texts

/-- The literals all get entries: their names are new, among each other too, and there is room. -/
structure SymbolTable.Admits (table : SymbolTable) (texts : List (CString 255)) : Prop where
  new : ∀ text ∈ texts, table.named (stringKey text) = []
  distinct : (texts.map stringKey).Nodup
  room : table.symbols.length + texts.length ≤ 1024

theorem text_literalEntry (address : Word) (text : CString 255) :
    (literalEntry address text).text = literalBytes text := by
  have hcopy : CString.ofBytes 255 text.chars = text := text.copy_self
  simp [Symbol.text, literalEntry, newEntry, literalBytes, hcopy]

theorem name_literalEntry (address : Word) (text : CString 255) :
    (literalEntry address text).name = stringKey text := (stringKey text).copy_self

/-- A literal moves the next address, whether it gets an entry or not. -/
theorem nextStringAddr_defineLiteral (table : SymbolTable) (text : CString 255) :
    (defineLiteral table text).nextStringAddr =
      table.nextStringAddr + BitVec.ofNat 32 (literalBytes text).length := by
  refine nextStringAddr_add.trans ?_
  simp [literalBytes]

/-- A literal with a new name takes the next address. -/
theorem defineLiteral_new (hnew : table.named (stringKey text) = []) (hroom : ¬ table.Full) :
    (defineLiteral table text).symbols =
      table.symbols ++ [literalEntry table.nextStringAddr text] := by
  have htakes : (symbolTableAllocateString table text.chars).2.Takes (stringKey text).chars :=
    ⟨Nat.not_le.mp hroom, named_eq_nil_chars.mp hnew⟩
  exact symbols_add_of_takes htakes

theorem not_full_of_admits (h : table.Admits (text :: texts)) :
    ¬ table.Full := by
  have hroom := h.room
  rw [List.length_cons] at hroom
  unfold SymbolTable.Full
  omega

theorem SymbolTable.Admits.tail (h : table.Admits (text :: texts)) :
    (defineLiteral table text).Admits texts := by
  have hsymbols := defineLiteral_new (h.new text (by simp)) (not_full_of_admits h)
  obtain ⟨hnotin, hdistinct⟩ := List.nodup_cons.mp h.distinct
  refine ⟨?_, hdistinct, ?_⟩
  · intro other hother
    have hne : stringKey text ≠ stringKey other := fun he =>
      hnotin (he ▸ List.mem_map_of_mem hother)
    have hold := h.new other (List.mem_cons_of_mem _ hother)
    rw [SymbolTable.named] at hold ⊢
    rw [hsymbols, List.filter_append, hold]
    simp [name_literalEntry, hne]
  · have hroom := h.room
    rw [List.length_cons] at hroom
    rw [hsymbols, List.length_append, List.length_singleton]
    omega

/-- Only the entries matter. -/
theorem SymbolTable.Admits.congr (h : table.Admits texts) (hs : other.symbols = table.symbols) :
    other.Admits texts := by
  refine ⟨?_, h.distinct, hs ▸ h.room⟩
  intro text htext
  rw [SymbolTable.named, hs]
  exact h.new text htext

/-- Literals that are admitted take the addresses one after the other. -/
theorem defineLiterals_allocates (h : table.Admits texts) :
    (texts.foldl defineLiteral table).symbols =
        table.symbols ++ allocate table.nextStringAddr texts ∧
      (texts.foldl defineLiteral table).nextStringAddr =
        table.nextStringAddr + BitVec.ofNat 32 (literalSpace texts) := by
  induction texts generalizing table with
  | nil => exact ⟨(List.append_nil _).symm, (BitVec.add_zero _).symm⟩
  | cons text texts ih =>
    have hentry := defineLiteral_new (h.new text (by simp)) (not_full_of_admits h)
    obtain ⟨hsymbols, hnext⟩ := ih h.tail
    rw [nextStringAddr_defineLiteral] at hsymbols hnext
    constructor
    · rw [List.foldl_cons, hsymbols, hentry, List.append_assoc]
      rfl
    · rw [List.foldl_cons, hnext, literalSpace, literalSpace, List.map_cons, List.sum_cons,
        BitVec.ofNat_add, BitVec.add_assoc]

/-- After some literals the later ones are still new. -/
theorem defineLiterals_admits (h : table.Admits (texts ++ more)) :
    (texts.foldl defineLiteral table).Admits more := by
  induction texts generalizing table with
  | nil => exact h
  | cons text texts ih => exact ih h.tail

/-- The second pass allocates the literals one after the other. -/
theorem encodeAll_allocates (stale : Word → ℕ → Word) (address : Word)
    (h : table.Admits (literals insts)) :
    (encodeAll stale address table insts).2.symbols =
        table.symbols ++ allocate table.nextStringAddr (literals insts) ∧
      (encodeAll stale address table insts).2.nextStringAddr =
        table.nextStringAddr + BitVec.ofNat 32 (literalSpace (literals insts)) := by
  obtain ⟨hsymbols, hnext⟩ := encodeAll_entries stale address insts ⟨rfl, rfl⟩
  rw [hsymbols, hnext]
  exact defineLiterals_allocates h

/-- After some instructions the later literals are still new. -/
theorem encodeAll_admits (stale : Word → ℕ → Word) (address : Word)
    (h : table.Admits (literals insts ++ texts)) :
    (encodeAll stale address table insts).2.Admits texts :=
  (defineLiterals_admits h).congr (encodeAll_entries stale address insts ⟨rfl, rfl⟩).1

theorem stringAddress_new (h : table.Admits (text :: texts)) :
    (stringAddress table text).1 = table.nextStringAddr := by
  have hnew := h.new text (by simp)
  have hentry := defineLiteral_new hnew (not_full_of_admits h)
  have hone : (defineLiteral table text).named (stringKey text) =
      (some (literalEntry table.nextStringAddr text)).toList := by
    rw [SymbolTable.named] at hnew ⊢
    rw [hentry, List.filter_append, hnew]
    simp [name_literalEntry]
  exact addressOf_named hone

section source

variable {input : List Byte} {start : SymbolTable × Word} {lines : List Line}

theorem nextStringAddr_defineLines :
    (defineLines start lines).1.nextStringAddr = start.1.nextStringAddr := by
  induction lines generalizing start with
  | nil => rfl
  | cons line lines ih =>
    refine ih.trans ?_
    cases line with
    | blank => rfl
    | instruction inst => rfl
    | label name number => exact nextStringAddr_add
    | constant name v number => exact nextStringAddr_add

/-- The first pass enters no strings. -/
theorem not_isString_defineLines (h : ∀ sym ∈ start.1.symbols, sym.isString = false) :
    ∀ sym ∈ (defineLines start lines).1.symbols, sym.isString = false := by
  have hadd : ∀ (table : SymbolTable) raw type address value line, type ≠ .string →
      (∀ sym ∈ table.symbols, sym.isString = false) →
      ∀ sym ∈ (symbolTableAdd table raw type address value none line).2.1.symbols,
        sym.isString = false := by
    intro table raw type address value line htype hold sym hsym
    rcases mem_symbols_add hsym with hsym | rfl
    · exact hold sym hsym
    · simp [Symbol.isString, newEntry, htype]
  induction lines generalizing start with
  | nil => exact h
  | cons line lines ih =>
    apply ih
    cases line with
    | blank => exact h
    | instruction inst => exact h
    | label name number => exact hadd _ _ _ _ _ _ (by simp) h
    | constant name v number => exact hadd _ _ _ _ _ _ (by simp) h

/-- The bytes of a literal as the writer pads them. -/
def literalPadded (text : CString 255) : List Byte :=
  literalBytes text ++
    List.replicate (((literalBytes text).length + 3) / 4 * 4 - (literalBytes text).length) 0#8

theorem stringData_allocate (address : Word) (texts : List (CString 255)) :
    stringData (allocate address texts) = texts.flatMap literalPadded := by
  induction texts generalizing address with
  | nil => rfl
  | cons text texts ih =>
    have hstring : (literalEntry address text).isString = true := rfl
    have hpadded : (literalEntry address text).padded = literalPadded text := by
      rw [Symbol.padded, text_literalEntry]
      rfl
    have hrest := ih (address + BitVec.ofNat 32 (literalBytes text).length)
    rw [stringData] at hrest ⊢
    rw [allocate, List.filter_cons_of_pos hstring, List.flatMap_cons, List.flatMap_cons, hrest,
      hpadded]

/-- Literals of whole words need no padding. -/
theorem length_padded_aligned (h : ∀ text ∈ texts, 4 ∣ (literalBytes text).length) :
    (texts.flatMap literalPadded).length = literalSpace texts := by
  induction texts with
  | nil => rfl
  | cons text texts ih =>
    obtain ⟨htext, hrest⟩ := List.forall_mem_cons.mp h
    have hpad : (literalPadded text).length = (literalBytes text).length := by
      simp only [literalPadded, List.length_append, List.length_replicate]
      omega
    rw [List.flatMap_cons, List.length_append, ih hrest, hpad, literalSpace, literalSpace,
      List.map_cons, List.sum_cons]

/-- The entries of a text whose literals are all admitted. -/
theorem textSymbols_eq (stale : ℕ → Word → ℕ → Word)
    (h : (sourceTable symbolTableInit input).Admits (literals (sourceInstructions input))) :
    textSymbols stale input = (sourceTable symbolTableInit input).symbols ++
      allocate (sourceTable symbolTableInit input).nextStringAddr
        (literals (sourceInstructions input)) :=
  (encodeAll_allocates (stale 2) 0#32 h).1

theorem filter_sourceTable :
    (sourceTable symbolTableInit input).symbols.filter Symbol.isString = [] := by
  rw [List.filter_eq_nil_iff]
  intro sym hsym
  have hnot : sym.isString = false :=
    not_isString_defineLines (by simp [symbolTableInit]) sym hsym
  simp [hnot]

theorem stringData_text (stale : ℕ → Word → ℕ → Word)
    (h : (sourceTable symbolTableInit input).Admits (literals (sourceInstructions input))) :
    stringData (textSymbols stale input) =
      (literals (sourceInstructions input)).flatMap literalPadded := by
  rw [textSymbols_eq stale h, stringData, List.filter_append, filter_sourceTable, List.nil_append]
  exact stringData_allocate _ _

/-- Without string literals the file has its format. -/
theorem keepsWords_of_no_literals (stale : ℕ → Word → ℕ → Word)
    (h : literals (sourceInstructions input) = []) :
    KeepsWords (textWords stale input) (textSymbols stale input) := by
  have hadmits :
      (sourceTable symbolTableInit input).Admits (literals (sourceInstructions input)) := by
    rw [h]
    exact ⟨by simp, List.nodup_nil, (sourceTable symbolTableInit input).bounded⟩
  have hnone : (textSymbols stale input).filter Symbol.isString = [] := by
    rw [textSymbols_eq stale hadmits, h, allocate, List.append_nil, filter_sourceTable]
  constructor
  · intro sym hsym hstring
    have hmem : sym ∈ (textSymbols stale input).filter Symbol.isString :=
      List.mem_filter.mpr ⟨hsym, hstring⟩
    rw [hnone] at hmem
    cases hmem
  · intro p hp c hc
    rw [stringCopies, hnone] at hc
    cases hc

/-- The literals around the one that instruction `i` loads. -/
theorem literals_split {i : ℕ} {inst : ParsedInstruction} {text : CString 255}
    (hi : insts[i]? = some inst) (hl : inst.literal = some text) :
    literals insts = literals (insts.take i) ++ text :: literals (insts.drop (i + 1)) := by
  obtain ⟨hlt, rfl⟩ := List.getElem?_eq_some_iff.mp hi
  have hsplit : insts = insts.take i ++ insts[i] :: insts.drop (i + 1) := by
    rw [← List.drop_eq_getElem_cons hlt, List.take_append_drop]
  have hcons : literals (insts[i] :: insts.drop (i + 1)) = text :: literals (insts.drop (i + 1)) :=
    List.filterMap_cons_some hl
  calc literals insts = literals (insts.take i ++ insts[i] :: insts.drop (i + 1)) :=
        congrArg literals hsplit
    _ = literals (insts.take i) ++ literals (insts[i] :: insts.drop (i + 1)) :=
        List.filterMap_append
    _ = literals (insts.take i) ++ text :: literals (insts.drop (i + 1)) := by rw [hcons]

theorem SymbolTable.Admits.front (h : table.Admits (texts ++ more)) : table.Admits texts := by
  have hroom := h.room
  have hdistinct := h.distinct
  rw [List.length_append] at hroom
  rw [List.map_append] at hdistinct
  exact ⟨fun text ht => h.new text (List.mem_append_left _ ht), hdistinct.of_append_left, by omega⟩

/-- The address of a literal counts the bytes of the literals before it. -/
theorem address_text (stale : ℕ → Word → ℕ → Word) {i : ℕ} {inst : ParsedInstruction}
    {text : CString 255} (hi : (sourceInstructions input)[i]? = some inst)
    (hl : inst.literal = some text)
    (h : (sourceTable symbolTableInit input).Admits (literals (sourceInstructions input))) :
    (stringAddress (tableBefore stale symbolTableInit input i) text).1 =
      0x100#32 + BitVec.ofNat 32 (literalSpace (literals ((sourceInstructions input).take i))) := by
  rw [literals_split hi hl] at h
  have hstart : (sourceTable symbolTableInit input).nextStringAddr = 0x100#32 :=
    nextStringAddr_defineLines
  rw [tableBefore, stringAddress_new (encodeAll_admits (stale 2) 0#32 h), ← hstart]
  exact (encodeAll_allocates (stale 2) 0#32 h.front).2

end source

end Dez.Assembler
