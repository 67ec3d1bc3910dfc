import Dez.Assembler.Passes

/-! What the symbol table keeps under a name, through both passes. -/
namespace Dez.Assembler
variable {table : SymbolTable} {name : CString 63} {found : Option Symbol} {symbol : Symbol}

/-- The entries of a name. The cache never matters when there is at most one. -/
def SymbolTable.named (table : SymbolTable) (name : CString 63) : List Symbol :=
  table.symbols.filter fun symbol => symbol.name = name

/-- No further entry fits. -/
def SymbolTable.Full (table : SymbolTable) : Prop := 1024 ≤ table.symbols.length

theorem named_eq_nil : table.named name = [] ↔ ∀ s ∈ table.symbols, s.name ≠ name := by
  simp [SymbolTable.named]

theorem named_eq_nil_chars :
    table.named name = [] ↔ ∀ s ∈ table.symbols, s.name.chars ≠ name.chars := by
  rw [named_eq_nil]
  exact forall₂_congr fun s _ => not_congr ⟨congrArg CString.chars, CString.ext_chars⟩

theorem mem_named : symbol ∈ table.named name ↔ symbol ∈ table.symbols ∧ symbol.name = name := by
  simp [SymbolTable.named]

theorem find_named (h : table.named name = found.toList) :
    (symbolTableFind table name.chars).1 = found := by
  cases found with
  | none =>
    cases hf : (symbolTableFind table name.chars).1 with
    | none => rfl
    | some s =>
      obtain ⟨hs, hn⟩ := find_eq_some hf
      exact absurd hn (named_eq_nil_chars.mp h s hs)
  | some symbol =>
    have hmem : symbol ∈ table.named name := by simp [h]
    obtain ⟨hs, hn⟩ := mem_named.mp hmem
    apply find_unique hs (congrArg CString.chars hn)
    intro s hs hname
    have hone : s ∈ table.named name := mem_named.mpr ⟨hs, CString.ext_chars hname⟩
    simpa [h] using hone

theorem addressOf_find (h : (symbolTableFind table name.chars).1 = found) :
    (addressOf table name).1 = found.elim 0 Symbol.address := by
  unfold addressOf
  cases hs : symbolTableFind table name.chars with
  | mk s table' =>
    rw [hs] at h
    obtain rfl : s = found := h
    cases s <;> rfl

theorem addressOf_named (h : table.named name = found.toList) :
    (addressOf table name).1 = found.elim 0 Symbol.address := addressOf_find (find_named h)

theorem addressOf_table (table : SymbolTable) (name : CString 63) :
    (addressOf table name).2 = (symbolTableFind table name.chars).2 := by
  unfold addressOf
  cases symbolTableFind table name.chars with
  | mk symbol table' => cases symbol <;> rfl

theorem symbols_addressOf (table : SymbolTable) (name : CString 63) :
    (addressOf table name).2.symbols = table.symbols := by
  rw [addressOf_table, symbols_find]

theorem nextStringAddr_addressOf (table : SymbolTable) (name : CString 63) :
    (addressOf table name).2.nextStringAddr = table.nextStringAddr := by
  rw [addressOf_table, nextStringAddr_find]

section add

variable {raw : List Byte} {type : SymbolType} {address value : Word}
  {stringValue : Option (List Byte)} {line : ℕ}

/-- The entry `symbol_table_add` makes. -/
def newEntry (raw : List Byte) (type : SymbolType) (address value : Word)
    (stringValue : Option (List Byte)) (line : ℕ) : Symbol where
  name := .ofBytes 63 raw
  type := type
  address := address
  value := value
  stringValue := .ofBytes 255 (stringValue.getD [])
  defined := true
  line := line

/-- The uncut name has no entry, and one more fits. -/
def SymbolTable.Takes (table : SymbolTable) (raw : List Byte) : Prop :=
  table.symbols.length < 1024 ∧ ∀ s ∈ table.symbols, s.name.chars ≠ raw

theorem symbols_add_of_takes (h : table.Takes raw) :
    (symbolTableAdd table raw type address value stringValue line).2.1.symbols =
      table.symbols ++ [newEntry raw type address value stringValue line] := by
  obtain ⟨hroom, hnew⟩ := h
  have hnone : (symbolTableFind table raw).1 = none := by
    cases hf : (symbolTableFind table raw).1 with
    | none => rfl
    | some s =>
      obtain ⟨hs, hn⟩ := find_eq_some hf
      exact absurd hn (hnew s hs)
  simp only [symbolTableAdd, dif_pos hroom, hnone, symbols_find]
  rfl

theorem symbols_add_of_not_takes (h : ¬ table.Takes raw) :
    (symbolTableAdd table raw type address value stringValue line).2.1.symbols =
      table.symbols := by
  unfold symbolTableAdd
  split
  · rename_i hroom
    dsimp only
    split
    · exact symbols_find ..
    · rename_i hnone
      exact absurd ⟨hroom, find_eq_none hnone⟩ h
  · rfl

theorem add_succeeds_iff :
    (symbolTableAdd table raw type address value stringValue line).1 = true ↔ table.Takes raw := by
  unfold symbolTableAdd
  split
  · rename_i hroom
    dsimp only
    split
    · rename_i existing hfound
      refine iff_of_false Bool.noConfusion fun ht => ?_
      obtain ⟨hs, hn⟩ := find_eq_some hfound
      exact ht.2 existing hs hn
    · rename_i hnone
      exact iff_of_true rfl ⟨hroom, find_eq_none hnone⟩
  · rename_i hfull
    exact iff_of_false Bool.noConfusion fun ht => hfull ht.1

theorem nextStringAddr_add :
    (symbolTableAdd table raw type address value stringValue line).2.1.nextStringAddr =
      table.nextStringAddr := by
  unfold symbolTableAdd
  split
  · dsimp only
    split <;> exact nextStringAddr_find ..
  · rfl

/-- An entry is only ever appended. -/
theorem symbols_add :
    (symbolTableAdd table raw type address value stringValue line).2.1.symbols = table.symbols ∨
    table.Takes raw ∧ (symbolTableAdd table raw type address value stringValue line).2.1.symbols =
      table.symbols ++ [newEntry raw type address value stringValue line] := by
  by_cases h : table.Takes raw
  · exact .inr ⟨h, symbols_add_of_takes h⟩
  · exact .inl (symbols_add_of_not_takes h)

theorem mem_symbols_add (h : symbol ∈
      (symbolTableAdd table raw type address value stringValue line).2.1.symbols) :
    symbol ∈ table.symbols ∨ symbol = newEntry raw type address value stringValue line := by
  rcases symbols_add with hs | ⟨-, hs⟩
  · exact .inl (hs ▸ h)
  · rw [hs, List.mem_append, List.mem_singleton] at h
    exact h

theorem symbols_add_of_full (h : table.Full) :
    (symbolTableAdd table raw type address value stringValue line).2.1.symbols =
      table.symbols :=
  symbols_add_of_not_takes fun ht => absurd ht.1 (Nat.not_lt.mpr h)

theorem full_add (h : table.Full) :
    (symbolTableAdd table raw type address value stringValue line).2.1.Full := by
  unfold SymbolTable.Full
  rwa [symbols_add_of_full h]

/-- Other names keep their entries. -/
theorem named_add_of_ne (h : CString.ofBytes 63 raw ≠ name) :
    (symbolTableAdd table raw type address value stringValue line).2.1.named name =
      table.named name := by
  unfold SymbolTable.named
  rcases symbols_add with hs | ⟨-, hs⟩
  · rw [hs]
  · rw [hs, List.filter_append]
    simp [newEntry, h]

/-- Nothing is entered under the name any more: it has an entry, or there is no room. -/
def SymbolTable.Settled (table : SymbolTable) (name : CString 63) : Prop :=
  table.named name ≠ [] ∨ table.Full

/-- A name that fits its cell is never entered twice. -/
theorem named_add_of_settled {short : CString 63} (h : table.Settled name) :
    (symbolTableAdd table short.chars type address value stringValue line).2.1.named name =
      table.named name := by
  rcases h with h | h
  · by_cases hname : short = name
    · subst hname
      have hno : ¬ table.Takes short.chars := fun ht => h (named_eq_nil_chars.mpr ht.2)
      unfold SymbolTable.named
      rw [symbols_add_of_not_takes hno]
    · apply named_add_of_ne
      rwa [← CString.copy, CString.copy_self]
  · unfold SymbolTable.named
    rw [symbols_add_of_full h]

/-- A name without an entry gets one if there is room. -/
theorem named_add_self {n : ℕ} {long : CString n}
    (h : table.named (long.copy 63) = []) (hroom : ¬ table.Full) :
    (symbolTableAdd table long.chars type address value stringValue line).2.1.named (long.copy 63) =
      [newEntry long.chars type address value stringValue line] := by
  have hnew : ∀ s ∈ table.symbols, s.name.chars ≠ long.chars := by
    intro s hs he
    -- an entry's name is at most 63 characters, so a longer name is never found
    have hfits : long.chars.length ≤ 63 := he ▸ s.name.fits
    exact named_eq_nil_chars.mp h s hs (he.trans (long.copy_of_le hfits).symm)
  have ht : table.Takes long.chars := ⟨Nat.not_le.mp hroom, hnew⟩
  unfold SymbolTable.named at h ⊢
  rw [symbols_add_of_takes ht, List.filter_append, h]
  simp [newEntry, CString.copy]

end add

section firstPass

variable {start : SymbolTable × Word} {lines : List Line} {line : Line}

/-- The name a line defines, as far as the symbol table keeps it. -/
def Line.key : Line → Option (CString 63)
  | .label name _ => some (name.copy 63)
  | .constant name _ _ => some (name.copy 63)
  | _ => none

theorem named_defineLine (h : line.key ≠ some name) :
    (defineLine start line).1.named name = start.1.named name := by
  cases line with
  | blank => rfl
  | instruction inst => rfl
  | label long number => exact named_add_of_ne fun he => h (congrArg some he)
  | constant long v number => exact named_add_of_ne fun he => h (congrArg some he)

theorem defineLine_address : (defineLine start line).2 =
    start.2 + BitVec.ofNat 32 (instructions [line]).length := by
  cases line with
  | instruction inst => rfl
  | _ => exact (BitVec.add_zero _).symm

theorem named_defineLines (h : ∀ line ∈ lines, line.key ≠ some name) :
    (defineLines start lines).1.named name = start.1.named name := by
  induction lines generalizing start with
  | nil => rfl
  | cons line lines ih =>
    obtain ⟨hl, hrest⟩ := List.forall_mem_cons.mp h
    exact (ih hrest).trans (named_defineLine hl)

/-- The address counter counts the instructions. -/
theorem defineLines_address : (defineLines start lines).2 =
    start.2 + BitVec.ofNat 32 (instructions lines).length := by
  induction lines generalizing start with
  | nil => exact (BitVec.add_zero _).symm
  | cons line lines ih =>
    have hlen : (instructions (line :: lines)).length =
        (instructions [line]).length + (instructions lines).length := by
      rw [← List.length_append, instructions, instructions, instructions, ← List.filterMap_append]
      rfl
    calc (defineLines start (line :: lines)).2
        = (defineLine start line).2 + BitVec.ofNat 32 (instructions lines).length := ih
      _ = start.2 + BitVec.ofNat 32 (instructions (line :: lines)).length := by
        rw [defineLine_address, hlen, BitVec.ofNat_add, BitVec.add_assoc]

theorem defineLines_append (first second : List Line) :
    defineLines start (first ++ second) = defineLines (defineLines start first) second :=
  List.foldl_append

end firstPass

section secondPass

variable {stale : ℕ → Word} {inst : ParsedInstruction} {text : CString 255}

/-- The string literal a `MOV` loads. -/
def ParsedInstruction.literal (inst : ParsedInstruction) : Option (CString 255) :=
  match inst.type, inst.operand 1 with
  | .mov, .string text => some text
  | _, _ => none

/-- What a string literal leaves of the symbol table. -/
def defineLiteral (table : SymbolTable) (text : CString 255) : SymbolTable :=
  (symbolTableDefineString table (stringKey text).chars text.chars 0).2.1

/-- A label is looked up. -/
def Operand.search (operand : Operand) (table : SymbolTable) : Word × SymbolTable :=
  match operand with
  | .label name => addressOf table name
  | _ => (0, table)

/-- The operand in which a label is looked up. -/
def searchedOperand : DezInstructionType → Option ℕ
  | .mov | .load => some 1
  | .jmp | .jz | .jnz | .jl | .jg | .jle | .jge | .call => some 0
  | _ => none

/-- What an instruction does with the symbol table: it enters a literal and looks it up, it looks a
label up, or it does nothing. -/
def ParsedInstruction.search (inst : ParsedInstruction) (table : SymbolTable) :
    Word × SymbolTable :=
  match inst.literal with
  | some text => addressOf (defineLiteral table text) (stringKey text)
  | none =>
    match searchedOperand inst.type with
    | some i => (inst.operand i).search table
    | none => (0, table)

def Operand.sought : Operand → Option (List Byte)
  | .label name => some name.chars
  | _ => none

/-- The name that is looked up for an instruction. -/
def ParsedInstruction.sought (inst : ParsedInstruction) : Option (List Byte) :=
  match inst.literal with
  | some text => some (stringKey text).chars
  | none => (searchedOperand inst.type).bind fun i => (inst.operand i).sought

theorem resolve_eq_search (stale : Word) (operand : Operand) :
    ∃ value : Word → Word, ∀ table,
      (resolve stale table operand).1 = value (operand.search table).1 ∧
        (resolve stale table operand).2 = (operand.search table).2 := by
  by_cases hlabel : ∃ name, operand = .label name
  · obtain ⟨name, rfl⟩ := hlabel
    exact ⟨id, fun table => ⟨rfl, rfl⟩⟩
  · refine ⟨fun _ => operand.value stale, fun table => ?_⟩
    cases operand with
    | label name => exact absurd ⟨name, rfl⟩ hlabel
    | _ => exact ⟨rfl, rfl⟩

/-- All that encoding takes from the symbol table and all that it leaves there is the search. -/
theorem encode_eq_search (stale : ℕ → Word) (inst : ParsedInstruction) :
    ∃ word : Word → Word, ∀ table,
      (parserEncodeInstruction stale table inst).1 = word (inst.search table).1 ∧
        (parserEncodeInstruction stale table inst).2.1 = (inst.search table).2 := by
  obtain ⟨type, operands⟩ := inst
  have hresolve := fun i =>
    resolve_eq_search (stale i) ((ParsedInstruction.mk type operands).operand i)
  -- the word of an instruction without a search is the same for every table
  have hplain : (∀ table, (parserEncodeInstruction stale table ⟨type, operands⟩).1 =
        (parserEncodeInstruction stale symbolTableInit ⟨type, operands⟩).1 ∧
      (parserEncodeInstruction stale table ⟨type, operands⟩).2.1 =
        (ParsedInstruction.search ⟨type, operands⟩ table).2) →
      ∃ word : Word → Word, ∀ table,
        (parserEncodeInstruction stale table ⟨type, operands⟩).1 =
            word (ParsedInstruction.search ⟨type, operands⟩ table).1 ∧
          (parserEncodeInstruction stale table ⟨type, operands⟩).2.1 =
            (ParsedInstruction.search ⟨type, operands⟩ table).2 :=
    fun h => ⟨Function.const _ _, h⟩
  cases type with
  | mov =>
    cases hop : (ParsedInstruction.mk .mov operands).operand 1 with
    | string text =>
      refine ⟨parserEncodeMov ((ParsedInstruction.mk .mov operands).reg 0), fun table => ?_⟩
      simp only [parserEncodeInstruction, ParsedInstruction.search, ParsedInstruction.literal, hop]
      exact ⟨rfl, rfl⟩
    | _ =>
      obtain ⟨value, hvalue⟩ := hresolve 1
      rw [hop] at hvalue
      refine ⟨parserEncodeMov ((ParsedInstruction.mk .mov operands).reg 0) ∘ value,
        fun table => ?_⟩
      simp only [parserEncodeInstruction, ParsedInstruction.search, ParsedInstruction.literal,
        searchedOperand, hop]
      exact ⟨congrArg (parserEncodeMov _) (hvalue table).1, (hvalue table).2⟩
  | load =>
    obtain ⟨value, hvalue⟩ := hresolve 1
    exact ⟨parserEncodeLoad _ ∘ value,
      fun table => ⟨congrArg (parserEncodeLoad _) (hvalue table).1, (hvalue table).2⟩⟩
  | jmp | jz | jnz | jl | jg | jle | jge | call =>
    obtain ⟨value, hvalue⟩ := hresolve 0
    exact ⟨parserEncodeJump _ 0 ∘ value,
      fun table => ⟨congrArg (parserEncodeJump _ 0) (hvalue table).1, (hvalue table).2⟩⟩
  | add | sub | mul | div | cmp =>
    refine hplain fun table => ?_
    unfold parserEncodeInstruction
    dsimp only
    split <;> exact ⟨rfl, rfl⟩
  | _ => exact hplain fun table => ⟨rfl, rfl⟩

/-- What encoding does to the entries and the string address: only a literal changes them. -/
theorem encode_table (stale : ℕ → Word) (table : SymbolTable) (inst : ParsedInstruction) :
    let defined := inst.literal.elim table (defineLiteral table)
    let after := (parserEncodeInstruction stale table inst).2.1
    after.symbols = defined.symbols ∧ after.nextStringAddr = defined.nextStringAddr := by
  obtain ⟨word, hsearch⟩ := encode_eq_search stale inst
  have hoperand : ∀ operand : Operand, (operand.search table).2.symbols = table.symbols ∧
      (operand.search table).2.nextStringAddr = table.nextStringAddr := by
    intro operand
    cases operand with
    | label name => exact ⟨symbols_addressOf .., nextStringAddr_addressOf ..⟩
    | _ => exact ⟨rfl, rfl⟩
  dsimp only
  rw [(hsearch table).2, ParsedInstruction.search]
  cases inst.literal with
  | some text => exact ⟨symbols_addressOf .., nextStringAddr_addressOf ..⟩
  | none =>
    cases searchedOperand inst.type with
    | some i => exact hoperand (inst.operand i)
    | none => exact ⟨rfl, rfl⟩

theorem named_defineLiteral (h : table.Settled name) :
    (defineLiteral table text).named name = table.named name := by
  have hallocated : (symbolTableAllocateString table text.chars).2.Settled name := h
  exact named_add_of_settled hallocated

theorem full_defineLiteral (h : table.Full) : (defineLiteral table text).Full := by
  have hallocated : (symbolTableAllocateString table text.chars).2.Full := h
  exact full_add hallocated

theorem named_encode (h : table.Settled name) :
    (parserEncodeInstruction stale table inst).2.1.named name = table.named name := by
  rw [SymbolTable.named, (encode_table stale table inst).1]
  cases inst.literal with
  | none => rfl
  | some text => exact named_defineLiteral h

theorem settled_encode (h : table.Settled name) :
    (parserEncodeInstruction stale table inst).2.1.Settled name := by
  unfold SymbolTable.Settled SymbolTable.Full
  rw [named_encode h, (encode_table stale table inst).1]
  refine h.imp_right fun hfull => ?_
  cases inst.literal with
  | none => exact hfull
  | some text => exact full_defineLiteral hfull

/-- The second pass leaves a settled name as it is. -/
theorem named_encodeAll {stale : Word → ℕ → Word} {insts : List ParsedInstruction} {address : Word}
    (h : table.Settled name) :
    (encodeAll stale address table insts).2.named name = table.named name := by
  induction insts generalizing table address with
  | nil => rfl
  | cons inst insts ih => exact (ih (settled_encode h)).trans (named_encode h)

theorem named_tableBefore {stale : ℕ → Word → ℕ → Word} {input : List Byte} {i : ℕ}
    (h : (sourceTable table input).Settled name) :
    (tableBefore stale table input i).named name = (sourceTable table input).named name :=
  named_encodeAll h

end secondPass

end Dez.Assembler
