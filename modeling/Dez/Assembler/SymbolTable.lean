import Dez.Assembler.Lexer
import Dez.Arrays

/-! The symbol table of `dez_symbol_table.c`, with its hash cache. -/
namespace Dez.Assembler

/-- `symbol_type_t` -/
inductive SymbolType
  | label | string | variable | constant
  deriving DecidableEq, Repr

/-- `symbol_t` -/
structure Symbol where
  name : CString 63
  type : SymbolType
  address : Word
  value : Word
  stringValue : CString 255
  defined : Bool
  line : ℕ
  deriving DecidableEq

/-- What the assembler prints about an input. -/
inductive Message
  | error (line column : ℕ) (message : String)
  | expected (line column : ℕ) (expected got : String)
  | symbolTableFull
  | alreadyDefined (name : List Byte) (line : ℕ)
  | stringDataExceeds
  | assemblyFailed
  | couldNotRead (inputFile : List Byte)
  | couldNotWrite (outputFile : List Byte)
  | assembled (instructions : ℕ) (outputFile : List Byte)
  | assembling (inputFile : List Byte)
  | starting
  | stored (str : List Byte) (addr : Word)
  | completed
  | symbols (table : List Symbol)
  | generatedCode (words : List Word)
  deriving DecidableEq

/-- `symbol_table_t`; the list holds the entries in use, `none` in the cache is `-1`. -/
structure SymbolTable where
  symbols : List Symbol
  hashTable : CArray (Option ℕ) 256
  nextStringAddr : Word
  bounded : symbols.length ≤ 1024

def symbolTableInit : SymbolTable where
  symbols := []
  hashTable := fun _ => none
  nextStringAddr := 0x100#32
  bounded := Nat.zero_le _

/-- `hash * 33 + c` on `uint32_t`, with `char` signed. -/
def symbolHash (name : List Byte) : Fin 256 :=
  let hash := name.foldl (fun (hash : Word) c => hash <<< 5 + hash + c.signExtend 32) 5381#32
  ⟨hash.toNat % 256, Nat.mod_lt _ (by decide)⟩

/-- The last entry of a name, with its index. -/
def searchBackwards (name : List Byte) : List Symbol → Option (ℕ × Symbol)
  | [] => none
  | symbol :: symbols =>
    match searchBackwards name symbols with
    | some (i, found) => some (i + 1, found)
    | none => if symbol.name.chars = name then some (0, symbol) else none

/-- The entry the cache points at, if it has the name. -/
def cached (table : SymbolTable) (name : List Byte) : Option Symbol := do
  let index ← table.hashTable (symbolHash name)
  let symbol ← table.symbols[index]?
  if symbol.name.chars = name then some symbol else none

/-- The entry found, and the table with its cache updated. -/
def symbolTableFind (table : SymbolTable) (name : List Byte) : Option Symbol × SymbolTable :=
  match cached table name with
  | some symbol => (some symbol, table)
  | none =>
    match searchBackwards name table.symbols with
    | some (i, symbol) =>
      (some symbol, { table with hashTable := table.hashTable.set (symbolHash name) (some i) })
    | none => (none, table)

theorem symbols_find (table : SymbolTable) (name : List Byte) :
    (symbolTableFind table name).2.symbols = table.symbols := by
  unfold symbolTableFind
  split
  · rfl
  · split <;> rfl

theorem nextStringAddr_find (table : SymbolTable) (name : List Byte) :
    (symbolTableFind table name).2.nextStringAddr = table.nextStringAddr := by
  unfold symbolTableFind
  split
  · rfl
  · split <;> rfl

/-- `symbol_table_add`: its result, the table, and what it prints. -/
def symbolTableAdd (table : SymbolTable) (name : List Byte) (type : SymbolType)
    (address value : Word) (stringValue : Option (List Byte)) (line : ℕ) :
    Bool × SymbolTable × List Message :=
  if h : table.symbols.length < 1024 then
    let found := symbolTableFind table name
    match found.1 with
    | some existing => (false, found.2, [.alreadyDefined name existing.line])
    | none =>
      let symbol : Symbol :=
        { name := .ofBytes 63 name, type := type, address := address, value := value,
          stringValue := .ofBytes 255 (stringValue.getD []), defined := true, line := line }
      (true, { found.2 with
        symbols := found.2.symbols ++ [symbol]
        bounded := by
          rw [List.length_append, symbols_find]
          exact h }, [])
  else (false, table, [.symbolTableFull])

def symbolTableDefine (table : SymbolTable) (name : List Byte) (address : Word) (line : ℕ) :
    Bool × SymbolTable × List Message :=
  symbolTableAdd table name .label address 0 none line

/-- The address for a string, and the table with the next one moved past its terminator. -/
def symbolTableAllocateString (table : SymbolTable) (str : List Byte) : Word × SymbolTable :=
  (table.nextStringAddr,
    { table with nextStringAddr := table.nextStringAddr + BitVec.ofNat 32 (str.length + 1) })

def symbolTableDefineString (table : SymbolTable) (name value : List Byte) (line : ℕ) :
    Bool × SymbolTable × List Message :=
  let (addr, table) := symbolTableAllocateString table value
  symbolTableAdd table name .string addr 0 (some value) line

def symbolTableDefineConstant (table : SymbolTable) (name : List Byte) (value : Word) (line : ℕ) :
    Bool × SymbolTable × List Message :=
  symbolTableAdd table name .constant value value none line

section search

variable {name : List Byte} {symbols : List Symbol} {i : ℕ} {symbol : Symbol} {table : SymbolTable}

theorem searchBackwards_eq_some (h : searchBackwards name symbols = some (i, symbol)) :
    symbols[i]? = some symbol ∧ symbol.name.chars = name := by
  induction symbols generalizing i with
  | nil => cases h
  | cons s symbols ih =>
    unfold searchBackwards at h
    split at h
    · rename_i j found hfound
      cases h
      exact ih hfound
    · split at h
      · cases h
        exact ⟨rfl, ‹_›⟩
      · cases h

theorem searchBackwards_eq_none (h : searchBackwards name symbols = none) :
    ∀ s ∈ symbols, s.name.chars ≠ name := by
  induction symbols with
  | nil => simp
  | cons s symbols ih =>
    unfold searchBackwards at h
    split at h
    · cases h
    · rename_i hrest
      split at h
      · cases h
      · simpa using ⟨‹_›, ih hrest⟩

theorem cached_eq_some (h : cached table name = some symbol) :
    symbol ∈ table.symbols ∧ symbol.name.chars = name := by
  simp only [cached, Option.bind_eq_bind, Option.bind_eq_some_iff] at h
  obtain ⟨index, -, s, hs, h⟩ := h
  split at h
  · cases h
    exact ⟨List.mem_of_getElem? hs, ‹_›⟩
  · cases h

/-- What is found is an entry of exactly that name, whatever the cache holds. -/
theorem find_eq_some (h : (symbolTableFind table name).1 = some symbol) :
    symbol ∈ table.symbols ∧ symbol.name.chars = name := by
  unfold symbolTableFind at h
  split at h
  · rename_i hc
    cases h
    exact cached_eq_some hc
  · split at h
    · rename_i hs
      cases h
      have hfound := searchBackwards_eq_some hs
      exact ⟨List.mem_of_getElem? hfound.1, hfound.2⟩
    · cases h

theorem find_eq_none (h : (symbolTableFind table name).1 = none) :
    ∀ s ∈ table.symbols, s.name.chars ≠ name := by
  unfold symbolTableFind at h
  split at h
  · cases h
  · split at h
    · cases h
    · exact searchBackwards_eq_none ‹_›

/-- An entry that is alone with its name is what a search for the name finds. -/
theorem find_unique (hs : symbol ∈ table.symbols) (hn : symbol.name.chars = name)
    (hu : ∀ s ∈ table.symbols, s.name.chars = name → s = symbol) :
    (symbolTableFind table name).1 = some symbol := by
  cases h : (symbolTableFind table name).1 with
  | none => exact absurd hn (find_eq_none h symbol hs)
  | some s =>
    obtain ⟨hmem, hname⟩ := find_eq_some h
    rw [hu s hmem hname]

end search

end Dez.Assembler
