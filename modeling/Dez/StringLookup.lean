import Dez.StringStorage

/-! The way back from addresses to string literals, and the check for undefined symbols. -/
namespace Dez.Assembler
open Toolchain (literalAddress)

/-- `symbol_table_get_string` -/
def symbolTableGetString (table : SymbolTable) (address : Word) : Option (List Byte) :=
  (table.symbols.find? fun symbol => symbol.isString && symbol.address = address).map
    fun symbol => symbol.stringValue.chars

/-- `symbol_table_validate`: its result, and the names that it prints an error for. -/
def symbolTableValidate (table : SymbolTable) : Bool × List (List Byte) :=
  let undefinedSymbols := table.symbols.filter fun symbol => !symbol.defined
  (undefinedSymbols.isEmpty, undefinedSymbols.map fun symbol => symbol.name.chars)

variable {capacity : ℕ} {stale : ℕ → Word → ℕ → Word} {input : List Byte} {table : SymbolTable}
  {address : Word} {chars : List Byte} {text s t : CString 255}

/-- Strings are found at the addresses that the words of the text have for them, and only there. -/
structure StringsFound (stale : ℕ → Word → ℕ → Word) (input : List Byte) (table : SymbolTable) :
    Prop where
  found : ∀ i text, Loads input i text →
    symbolTableGetString table (literalAddress stale input i text) = some text.chars
  only : ∀ address chars, symbolTableGetString table address = some chars →
    ∃ i text, Loads input i text ∧ text.chars = chars ∧ literalAddress stale input i text = address

/-- No two different texts begin at the same address. -/
def StartsApart (texts : List (CString 255)) : Prop :=
  ∀ s ∈ texts, ∀ t ∈ texts, literalOffset texts s % 2 ^ 32 = literalOffset texts t % 2 ^ 32 → s = t

theorem text_of_placed {names : List (CString 63)} {texts : List (CString 255)} {start : Word}
    (h : (address, text) ∈ placeLiterals names start texts) : text ∈ texts := by
  induction texts generalizing names start with
  | nil => cases h
  | cons first texts ih =>
    unfold placeLiterals at h
    dsimp only at h
    split at h
    · rcases List.mem_cons.mp h with heq | hrest
      · cases heq
        exact List.mem_cons_self
      · exact List.mem_cons_of_mem _ (ih hrest)
    · exact List.mem_cons_of_mem _ (ih h)

/-- The entries of a text whose literals are all entered are where the first occurrences put
them. -/
theorem LiteralsEntered.stored_iff (h : LiteralsEntered input) : (address, text) ∈
    storedLiterals input ↔ text ∈ literals (sourceInstructions input) ∧
      address =
        0x100#32 + BitVec.ofNat 32 (literalOffset (literals (sourceInstructions input)) text) := by
  have hplaced : ∀ other ∈ literals (sourceInstructions input), (0x100#32 +
      BitVec.ofNat 32 (literalOffset (literals (sourceInstructions input)) other), other) ∈
        storedLiterals input :=
    fun other hother => h.placed (fun _ hmem => hmem) hother
  constructor
  · intro hmem
    have htext := text_of_placed hmem
    obtain ⟨hnodup, -⟩ := keys_placeLiterals
      ((sourceTable symbolTableInit input).symbols.map Symbol.name) 0x100#32
      (literals (sourceInstructions input))
    have hsame := List.inj_on_of_nodup_map hnodup hmem (hplaced text htext) rfl
    exact ⟨htext, congrArg Prod.fst hsame⟩
  · rintro ⟨htext, rfl⟩
    exact hplaced text htext

/-- The entries that an accepted text leaves. -/
theorem symbols_accepted (output : CArray Word capacity)
    (h : (parserParse stale (parserInit input symbolTableInit output)).1 = true) :
    (parserParse stale (parserInit input symbolTableInit output)).2.symbolTable.symbols =
      (literalTable symbolTableInit input).symbols :=
  (congrArg SymbolTable.symbols (parserParse_eq h).2.1).trans
    (textSymbols_literalTable stale input)

section found

/-- What is found is an entry of a literal. -/
theorem stored_of_getString (htable : table.symbols = (literalTable symbolTableInit input).symbols)
    (h : symbolTableGetString table address = some chars) :
    ∃ text, (address, text) ∈ storedLiterals input ∧ text.chars = chars := by
  obtain ⟨symbol, hfind, rfl⟩ := Option.map_eq_some_iff.mp h
  have hfound := List.find?_some hfind
  rw [Bool.and_eq_true_iff, decide_eq_true_iff] at hfound
  have hmem := List.mem_filter.mpr ⟨List.mem_of_find?_eq_some hfind, hfound.1⟩
  rw [htable, strings_literalTable] at hmem
  obtain ⟨⟨a, text⟩, hplace, rfl⟩ := List.mem_map.mp hmem
  obtain rfl : a = address := hfound.2
  have hcopy : CString.ofBytes 255 text.chars = text := text.copy_self
  exact ⟨text, hplace, congrArg CString.chars hcopy.symm⟩

/-- Something is found at the address of an entry. -/
theorem getString_of_stored (htable : table.symbols = (literalTable symbolTableInit input).symbols)
    (h : (address, text) ∈ storedLiterals input) :
    ∃ chars, symbolTableGetString table address = some chars := by
  have hmem : literalEntry address text ∈ table.symbols := htable ▸ entry_mem_iff.mpr h
  have hsome : (table.symbols.find? fun symbol =>
      symbol.isString && symbol.address = address).isSome = true := by
    rw [List.find?_isSome]
    refine ⟨_, hmem, ?_⟩
    rw [Bool.and_eq_true_iff, decide_eq_true_iff]
    exact ⟨rfl, rfl⟩
  obtain ⟨symbol, hfind⟩ := Option.isSome_iff_exists.mp hsome
  exact ⟨symbol.stringValue.chars, congrArg (Option.map _) hfind⟩

/-- After an accepted text the table gives the literals back by the addresses in the words, and
nothing else, if and only if each literal has an entry and no two begin at the same address. -/
theorem strings_found_iff (stale : ℕ → Word → ℕ → Word) (input : List Byte)
    (output : CArray Word capacity)
    (h : (parserParse stale (parserInit input symbolTableInit output)).1 = true) :
    StringsFound stale input
        (parserParse stale (parserInit input symbolTableInit output)).2.symbolTable ↔
      LiteralsEntered input ∧ StartsApart (literals (sourceInstructions input)) := by
  have htable := symbols_accepted output h
  generalize (parserParse stale (parserInit input symbolTableInit output)).2.symbolTable = table
    at htable
  have hstart : ∀ a b : ℕ, 0x100#32 + BitVec.ofNat 32 a = 0x100#32 + BitVec.ofNat 32 b ↔
      a % 2 ^ 32 = b % 2 ^ 32 := by
    intro a b
    have hplace := place_eq_iff a b 0 0
    rwa [BitVec.add_zero, BitVec.add_zero, Nat.add_zero, Nat.add_zero] at hplace
  constructor
  · intro hs
    have hentered : LiteralsEntered input := by
      apply literalsEntered_of_stored
      intro text htext
      obtain ⟨i, hi⟩ := mem_literals_iff.mp htext
      obtain ⟨other, hplace, hchars⟩ := stored_of_getString htable (hs.found i text hi)
      exact ⟨_, CString.ext_chars hchars ▸ hplace⟩
    refine ⟨hentered, fun s hmem t hmem' hoffset => ?_⟩
    obtain ⟨i, hi⟩ := mem_literals_iff.mp hmem
    obtain ⟨j, hj⟩ := mem_literals_iff.mp hmem'
    have hfound := hs.found i s hi
    rw [hentered.at_offset stale hi, (hstart _ _).mpr hoffset, ← hentered.at_offset stale hj,
      hs.found j t hj] at hfound
    exact (CString.ext_chars (Option.some.inj hfound)).symm
  · rintro ⟨hentered, hstarts⟩
    constructor
    · intro i text hi
      have hmem := mem_literals_iff.mpr ⟨i, hi⟩
      rw [hentered.at_offset stale hi]
      obtain ⟨chars, hfound⟩ := getString_of_stored htable (hentered.stored_iff.mpr ⟨hmem, rfl⟩)
      obtain ⟨other, hplace, rfl⟩ := stored_of_getString htable hfound
      obtain ⟨hother, hoffset⟩ := hentered.stored_iff.mp hplace
      rw [hfound, hstarts text hmem other hother ((hstart _ _).mp hoffset)]
    · intro address chars hfound
      obtain ⟨text, hplace, rfl⟩ := stored_of_getString htable hfound
      obtain ⟨hmem, rfl⟩ := hentered.stored_iff.mp hplace
      obtain ⟨i, hi⟩ := mem_literals_iff.mp hmem
      exact ⟨i, text, hi, rfl, hentered.at_offset stale hi⟩

theorem strings_found_iff_letters :
    (parserParse (fun _ _ _ => 0) (parserInit (bytes "MOV R0, \"a\"\nMOV R1, \"b\"")
      symbolTableInit fun _ : Fin 2 => 0)).1 = true ∧
    (StringsFound (fun _ _ _ => 0) (bytes "MOV R0, \"a\"\nMOV R1, \"b\"")
        (parserParse (fun _ _ _ => 0) (parserInit (bytes "MOV R0, \"a\"\nMOV R1, \"b\"")
          symbolTableInit fun _ : Fin 2 => 0)).2.symbolTable ↔
      LiteralsEntered (bytes "MOV R0, \"a\"\nMOV R1, \"b\"") ∧
        StartsApart (literals (sourceInstructions (bytes "MOV R0, \"a\"\nMOV R1, \"b\"")))) :=
  ⟨by decide, strings_found_iff _ _ _ (by decide)⟩

end found

section validate

/-- What holds of every entry that is added holds of all entries behind the lines of a text. -/
theorem forall_defineLines {P : Symbol → Prop} {start : SymbolTable × Word} {lines : List Line}
    (hnew : ∀ raw type address value line, P (newEntry raw type address value none line))
    (h : ∀ symbol ∈ start.1.symbols, P symbol) :
    ∀ symbol ∈ (defineLines start lines).1.symbols, P symbol := by
  have hadd : ∀ (table : SymbolTable) raw type address value line,
      (∀ symbol ∈ table.symbols, P symbol) → ∀ symbol ∈
        (symbolTableAdd table raw type address value none line).2.1.symbols, P symbol := by
    intro table raw type address value line hold symbol hsymbol
    rcases mem_symbols_add hsymbol with hin | rfl
    · exact hold symbol hin
    · exact hnew ..
  induction lines generalizing start with
  | nil => exact h
  | cons line lines ih =>
    apply ih
    cases line with
    | blank => exact h
    | instruction inst => exact h
    | label name number => exact hadd _ _ _ _ _ _ h
    | constant name v number => exact hadd _ _ _ _ _ _ h

/-- The check for undefined symbols finds none, whatever names an accepted text leaves undefined. -/
theorem validate_accepts (output : CArray Word capacity)
    (h : (parserParse stale (parserInit input symbolTableInit output)).1 = true) :
    symbolTableValidate
      (parserParse stale (parserInit input symbolTableInit output)).2.symbolTable = (true, []) := by
  have htable := symbols_accepted output h
  have hall : ∀ symbol ∈ (literalTable symbolTableInit input).symbols, symbol.defined = true := by
    intro symbol hsymbol
    rw [literalTable, symbols_defineLiterals, List.mem_append] at hsymbol
    rcases hsymbol with hsource | hliteral
    · exact @forall_defineLines (fun symbol => symbol.defined = true) (symbolTableInit, 0#32) _
        (fun _ _ _ _ _ => rfl) (by simp [symbolTableInit]) symbol hsource
    · obtain ⟨place, -, rfl⟩ := List.mem_map.mp hliteral
      rfl
  have hnone : (literalTable symbolTableInit input).symbols.filter
      (fun symbol => !symbol.defined) = [] := by
    rw [List.filter_eq_nil_iff]
    intro symbol hsymbol
    rw [hall symbol hsymbol]
    exact Bool.false_ne_true
  rw [symbolTableValidate, htable, hnone]
  rfl

end validate

end Dez.Assembler
