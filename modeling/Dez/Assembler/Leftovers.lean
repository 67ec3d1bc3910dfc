import Dez.Assembler.Literals

/-! A symbol table that holds entries of an earlier text, beside one that does not. -/
namespace Dez.Assembler

/-- One table holds some entries and behind them those of the other, and its string pointer is
moved. Where the other's cache points nowhere, that of the first may point at an entry in front. -/
structure Below (left : List Symbol) (moved : Word) (again fresh : SymbolTable) : Prop where
  symbols : again.symbols = left ++ fresh.symbols
  nextStringAddr : again.nextStringAddr = moved + fresh.nextStringAddr
  cache : ∀ hash, again.hashTable hash = (fresh.hashTable hash).map (left.length + ·) ∨
    fresh.hashTable hash = none ∧ ∃ i < left.length, again.hashTable hash = some i

/-- No entry has the name. -/
def Unnamed (left : List Symbol) (name : List Byte) : Prop := ∀ s ∈ left, s.name.chars ≠ name

/-- Behind the entries in front there is room for one more. -/
def Room (left : List Symbol) (table : SymbolTable) : Prop :=
  left = [] ∨ left.length + table.symbols.length < 1024

/-- The names a line searches the symbol table for. -/
def Line.sought : Line → List (List Byte)
  | .blank => []
  | .label name _ => [name.chars]
  | .constant name _ _ => [name.chars]
  | .instruction inst => inst.sought.toList

variable {left symbols : List Symbol} {moved : Word} {again fresh table : SymbolTable}
  {name raw : List Byte}

theorem searchBackwards_append (hname : Unnamed left name) :
    searchBackwards name (left ++ symbols) =
      (searchBackwards name symbols).map fun found => (left.length + found.1, found.2) := by
  induction left with
  | nil => simp
  | cons s left ih =>
    obtain ⟨hs, hleft⟩ := List.forall_mem_cons.mp hname
    rw [List.cons_append, searchBackwards, ih hleft]
    cases searchBackwards name symbols with
    | none => exact if_neg hs
    | some found =>
      obtain ⟨i, symbol⟩ := found
      simp only [Option.map_some, List.length_cons, Option.some.injEq, Prod.mk.injEq, and_true]
      omega

namespace Below

theorem cached (h : Below left moved again fresh) (hname : Unnamed left name) :
    cached again name = cached fresh name := by
  unfold Assembler.cached
  rcases h.cache (symbolHash name) with hcache | ⟨hnone, i, hi, hcache⟩
  · cases hfresh : fresh.hashTable (symbolHash name) with
    | none =>
      rw [hcache, hfresh]
      rfl
    | some i =>
      have hentry : again.symbols[left.length + i]? = fresh.symbols[i]? := by
        rw [h.symbols, List.getElem?_append_right (Nat.le_add_right ..), Nat.add_sub_cancel_left]
      rw [hcache, hfresh, Option.map_some, Option.bind_eq_bind, Option.bind_some,
        Option.bind_eq_bind, Option.bind_some, hentry]
  · have hentry : again.symbols[i]? = some left[i] := by
      rw [h.symbols, List.getElem?_append_left hi, List.getElem?_eq_getElem hi]
    rw [hcache, hnone, Option.bind_eq_bind, Option.bind_some, hentry, Option.bind_eq_bind,
      Option.bind_some, if_neg (hname _ (List.getElem_mem hi))]
    rfl

theorem setCache (h : Below left moved again fresh) (hash : Fin 256) (i : ℕ) :
    Below left moved { again with hashTable := again.hashTable.set hash (some (left.length + i)) }
      { fresh with hashTable := fresh.hashTable.set hash (some i) } := by
  refine ⟨h.symbols, h.nextStringAddr, fun hash' => ?_⟩
  dsimp only
  rw [CArray.set_apply, CArray.set_apply]
  split
  · exact .inl rfl
  · exact h.cache hash'

/-- A search finds the same in both tables. -/
theorem find (h : Below left moved again fresh) (hname : Unnamed left name) :
    (symbolTableFind again name).1 = (symbolTableFind fresh name).1 ∧
      Below left moved (symbolTableFind again name).2 (symbolTableFind fresh name).2 := by
  have hsearch : searchBackwards name again.symbols =
      (searchBackwards name fresh.symbols).map fun found => (left.length + found.1, found.2) := by
    rw [h.symbols, searchBackwards_append hname]
  unfold symbolTableFind
  rw [h.cached hname, hsearch]
  cases Assembler.cached fresh name with
  | some symbol => exact ⟨rfl, h⟩
  | none =>
    cases searchBackwards name fresh.symbols with
    | none => exact ⟨rfl, h⟩
    | some found => exact ⟨rfl, h.setCache (symbolHash name) found.1⟩

variable {type : SymbolType} {address value : Word} {stringValue : Option (List Byte)} {line : ℕ}

theorem add (h : Below left moved again fresh) (hname : Unnamed left raw)
    (hroom : Room left fresh) :
    Below left moved (symbolTableAdd again raw type address value stringValue line).2.1
      (symbolTableAdd fresh raw type address value stringValue line).2.1 := by
  have hlength : again.symbols.length = left.length + fresh.symbols.length := by
    rw [h.symbols, List.length_append]
  by_cases hfresh : fresh.symbols.length < 1024
  · have hagain : again.symbols.length < 1024 := by
      rcases hroom with rfl | hroom
      · rwa [hlength, List.length_nil, Nat.zero_add]
      · rwa [hlength]
    obtain ⟨hfound, hbelow⟩ := h.find hname
    simp only [symbolTableAdd, dif_pos hfresh, dif_pos hagain, hfound]
    cases (symbolTableFind fresh raw).1 with
    | some existing => exact hbelow
    | none =>
      refine ⟨?_, hbelow.nextStringAddr, hbelow.cache⟩
      dsimp only
      rw [hbelow.symbols, List.append_assoc]
  · have hagain : ¬ again.symbols.length < 1024 := by omega
    simp only [symbolTableAdd, dif_neg hfresh, dif_neg hagain]
    exact h

theorem addressOf {name : CString 63} (h : Below left moved again fresh)
    (hname : Unnamed left name.chars) :
    (addressOf again name).1 = (addressOf fresh name).1 ∧
      Below left moved (addressOf again name).2 (addressOf fresh name).2 := by
  obtain ⟨hfound, hbelow⟩ := h.find hname
  constructor
  · rw [addressOf_find hfound, addressOf_find rfl]
  · rw [addressOf_table, addressOf_table]
    exact hbelow

theorem defineLiteral {text : CString 255} (h : Below left 0#32 again fresh)
    (hname : Unnamed left (stringKey text).chars) (hroom : Room left fresh) :
    Below left 0#32 (defineLiteral again text) (defineLiteral fresh text) := by
  have haddress : again.nextStringAddr = fresh.nextStringAddr :=
    h.nextStringAddr.trans (BitVec.zero_add _)
  have hallocated : Below left 0#32 (symbolTableAllocateString again text.chars).2
      (symbolTableAllocateString fresh text.chars).2 := by
    refine ⟨h.symbols, ?_, h.cache⟩
    rw [BitVec.zero_add]
    exact congrArg (· + _) haddress
  change Below left 0#32 (symbolTableAdd (symbolTableAllocateString again text.chars).2
    (stringKey text).chars .string again.nextStringAddr 0 (some text.chars) 0).2.1 _
  rw [haddress]
  exact hallocated.add hname hroom

theorem search {inst : ParsedInstruction} (h : Below left moved again fresh)
    (hnames : ∀ name ∈ inst.sought, Unnamed left name)
    (hliterals : inst.literal ≠ none → moved = 0#32 ∧ Room left fresh) :
    (inst.search again).1 = (inst.search fresh).1 ∧
      Below left moved (inst.search again).2 (inst.search fresh).2 := by
  unfold ParsedInstruction.sought at hnames
  unfold ParsedInstruction.search
  cases hliteral : inst.literal with
  | some text =>
    obtain ⟨rfl, hroom⟩ := hliterals (by rw [hliteral]; exact Option.some_ne_none _)
    rw [hliteral] at hnames
    have hname : Unnamed left (stringKey text).chars := hnames _ rfl
    exact (h.defineLiteral hname hroom).addressOf hname
  | none =>
    rw [hliteral] at hnames
    cases hi : searchedOperand inst.type with
    | none => exact ⟨rfl, h⟩
    | some i =>
      rw [hi] at hnames
      dsimp only [Option.bind_some] at hnames ⊢
      cases hop : inst.operand i with
      | label name =>
        rw [hop] at hnames
        exact h.addressOf (hnames _ rfl)
      | _ => exact ⟨rfl, h⟩

theorem encode {stale : ℕ → Word} {inst : ParsedInstruction} (h : Below left moved again fresh)
    (hnames : ∀ name ∈ inst.sought, Unnamed left name)
    (hliterals : inst.literal ≠ none → moved = 0#32 ∧ Room left fresh) :
    (parserEncodeInstruction stale again inst).1 = (parserEncodeInstruction stale fresh inst).1 ∧
      Below left moved (parserEncodeInstruction stale again inst).2.1
        (parserEncodeInstruction stale fresh inst).2.1 := by
  obtain ⟨word, hsearch⟩ := encode_eq_search stale inst
  obtain ⟨haddress, hbelow⟩ := h.search hnames hliterals
  constructor
  · rw [(hsearch again).1, (hsearch fresh).1, haddress]
  · rw [(hsearch again).2, (hsearch fresh).2]
    exact hbelow

theorem encodeAll {stale : Word → ℕ → Word} {insts : List ParsedInstruction} (start : Word)
    (h : Below left moved again fresh)
    (hnames : ∀ inst ∈ insts, ∀ name ∈ inst.sought, Unnamed left name)
    (hliterals : ∀ i inst, insts[i]? = some inst → inst.literal ≠ none →
      moved = 0#32 ∧ Room left (encodeAll stale start fresh (insts.take i)).2) :
    (encodeAll stale start again insts).1 = (encodeAll stale start fresh insts).1 ∧
      Below left moved (encodeAll stale start again insts).2
        (encodeAll stale start fresh insts).2 := by
  induction insts generalizing again fresh start with
  | nil => exact ⟨rfl, h⟩
  | cons inst insts ih =>
    obtain ⟨hinst, hinsts⟩ := List.forall_mem_cons.mp hnames
    obtain ⟨hword, hbelow⟩ := h.encode hinst (hliterals 0 inst rfl)
    obtain ⟨hwords, hbelow⟩ := ih (start + 1#32) hbelow hinsts
      fun i next hnext => hliterals (i + 1) next hnext
    exact ⟨congrArg₂ List.cons hword hwords, hbelow⟩

theorem defineLine {start start' : SymbolTable × Word} {line : Line}
    (h : Below left moved start.1 start'.1) (haddress : start.2 = start'.2)
    (hnames : ∀ name ∈ line.sought, Unnamed left name)
    (hroom : line.key ≠ none → Room left start'.1) :
    Below left moved (defineLine start line).1 (defineLine start' line).1 ∧
      (Assembler.defineLine start line).2 = (Assembler.defineLine start' line).2 := by
  obtain ⟨again, address⟩ := start
  obtain ⟨fresh, address'⟩ := start'
  obtain rfl : address = address' := haddress
  cases line with
  | blank => exact ⟨h, rfl⟩
  | instruction inst => exact ⟨h, rfl⟩
  | label name number =>
    exact ⟨h.add (hnames _ (List.mem_singleton_self _)) (hroom (Option.some_ne_none _)), rfl⟩
  | constant name value number =>
    exact ⟨h.add (hnames _ (List.mem_singleton_self _)) (hroom (Option.some_ne_none _)), rfl⟩

theorem defineLines {start start' : SymbolTable × Word} {lines : List Line}
    (h : Below left moved start.1 start'.1) (haddress : start.2 = start'.2)
    (hnames : ∀ line ∈ lines, ∀ name ∈ line.sought, Unnamed left name)
    (hroom : ∀ i line, lines[i]? = some line → line.key ≠ none →
      Room left (defineLines start' (lines.take i)).1) :
    Below left moved (defineLines start lines).1 (defineLines start' lines).1 := by
  induction lines generalizing start start' with
  | nil => exact h
  | cons line lines ih =>
    obtain ⟨hline, hlines⟩ := List.forall_mem_cons.mp hnames
    obtain ⟨hbelow, haddress⟩ := h.defineLine haddress hline (hroom 0 line rfl)
    exact ih hbelow haddress hlines fun i next hnext => hroom (i + 1) next hnext

end Below

section count

end count

end Dez.Assembler
