import Dez.Assembler.Cache
import Dez.Assembler.Grammar
import Dez.Assembler.Labels
import Dez.Assembler.StringData

/-! Labels as the second operand of `MOV`, `LOAD` and `STORE`. -/
namespace Dez.Assembler

variable {capacity : ℕ} {stale : ℕ → Word} {table : SymbolTable} {inst : ParsedInstruction}
  {name : CString 255} {short : CString 63}

/-- The mnemonics with a value or an address behind a register. -/
def valueTypes : List DezInstructionType := [.mov, .load, .store]

/-- The low bits of the first two characters of a name. -/
def nameBits (name : CString 255) : ℕ :=
  (name.chars.getD 0 0).toNat + 256 * ((name.chars.getD 1 0).toNat % 16)

theorem front_low (chars : List Byte) : (Operand.front chars).toNat % 4096 =
    (chars.getD 0 0).toNat + 256 * ((chars.getD 1 0).toNat % 16) := by
  have h0 := byteOf_wordOfBytes (chars.getD 0 0) (chars.getD 1 0) (chars.getD 2 0) (chars.getD 3 0)
    (show 0 < 4 by decide)
  have h1 := byteOf_wordOfBytes (chars.getD 0 0) (chars.getD 1 0) (chars.getD 2 0) (chars.getD 3 0)
    (show 1 < 4 by decide)
  have hlow : ∀ (w : Word) k, (byteOf w k).toNat = w.toNat / 2 ^ (8 * k) % 256 := by
    intro w k
    rw [byteOf, BitVec.toNat_setWidth, BitVec.toNat_ushiftRight, Nat.shiftRight_eq_div_pow]
  have e0 := (hlow (Operand.front chars) 0).symm.trans (congrArg BitVec.toNat h0)
  have e1 := (hlow (Operand.front chars) 1).symm.trans (congrArg BitVec.toNat h1)
  change _ = (chars.getD 0 0).toNat at e0
  change _ = (chars.getD 1 0).toNat at e1
  omega

/-- What the encoder takes for a name that it does not look up. -/
theorem front_copy (name : CString 255) :
    (Operand.front (name.copy 63).chars).toNat % 4096 = nameBits name := by
  rw [front_low, CString.chars_copy, nameBits]
  simp [List.getD_eq_getElem?_getD]

/-- `MOV` and `LOAD` look a label operand up. -/
theorem encode_label (ht : inst.type = .mov ∨ inst.type = .load)
    (hop : inst.operand 1 = .label short) :
    (decodeImmediate (parserEncodeInstruction stale table inst).1).toNat =
      (addressOf table short).1.toNat % 4096 := by
  obtain ⟨type, operands⟩ := inst
  rcases ht with rfl | rfl
  · have hword : (parserEncodeInstruction stale table ⟨.mov, operands⟩).1 =
        parserEncodeJump .mov ((⟨.mov, operands⟩ : ParsedInstruction).reg 0)
          (addressOf table short).1 := by
      simp only [parserEncodeInstruction, hop]
      rfl
    rw [hword]
    exact decodeImmediate_encodeJump ..
  · have hword : (parserEncodeInstruction stale table ⟨.load, operands⟩).1 =
        parserEncodeJump .load ((⟨.load, operands⟩ : ParsedInstruction).reg 0)
          (addressOf table short).1 := by
      simp only [parserEncodeInstruction, hop]
      rfl
    rw [hword]
    exact decodeImmediate_encodeJump ..

/-- `STORE` never does, and `LOAD` not in brackets: they take the name itself for the address. -/
theorem encode_unresolved
    (h : inst.type = .store ∧ inst.operand 1 = .label short ∨
      inst.type ∈ [.load, .store] ∧ inst.operand 1 = .memoryLabel short) :
    (decodeImmediate (parserEncodeInstruction stale table inst).1).toNat =
      (Operand.front short.chars).toNat % 4096 := by
  have hword : (parserEncodeInstruction stale table inst).1 =
      parserEncodeJump inst.type (inst.reg 0) (Operand.front short.chars) := by
    obtain ⟨type, operands⟩ := inst
    rcases h with ⟨rfl, hop⟩ | ⟨ht, hop⟩
    · simp only [parserEncodeInstruction, hop]
      rfl
    · simp only [List.mem_cons, List.not_mem_nil, or_false] at ht
      rcases ht with rfl | rfl
      · simp only [parserEncodeInstruction, hop]
        rfl
      · simp only [parserEncodeInstruction, hop]
        rfl
  rw [hword]
  exact decodeImmediate_encodeJump ..

/-- An operand that names a label, plain or behind `#`, or for a memory access in brackets. -/
def Names (inst : ParsedInstruction) (name : CString 255) : Prop :=
  inst.operand 1 = namedOperand name ∨
    inst.type ≠ .mov ∧ inst.operand 1 = .memoryLabel (name.copy 63)

section answer

variable {input : List Byte} {before after : List Line} {number i : ℕ}

/-- The names in the table, as its entries keep them, where the encoding comes to instruction `i`:
those of the definitions that are entered, and the keys of the literals in front that are new. -/
def namesBefore (input : List Byte) (i : ℕ) : List (CString 63) :=
  let names := (entered (readSource input).lines).map fun entry => entry.name.copy 63
  names ++ (placeLiterals names 0x100#32 (literals ((sourceInstructions input).take i))).map
    fun place => stringKey place.2

/-- Another name with the same hash that has an entry: looking it up takes the name's slot of the
cache. -/
def TakesSlot (names : List (CString 63)) (name other : List Byte) : Prop :=
  other ≠ name ∧ symbolHash other = symbolHash name ∧ ∃ short ∈ names, short.chars = other

/-- Behind the lines up to the label's, and before instruction `i`, another name is entered again or
looked up that takes the label's slot of the cache. -/
def Disturbed (input : List Byte) (upto after : List Line) (name : CString 255) (i : ℕ) : Prop :=
  (∃ front line behind long, after = front ++ line :: behind ∧ line.defines = some long ∧
    (entered (upto ++ front)).length < 1024 ∧
    TakesSlot ((entered (upto ++ front)).map fun entry => entry.name.copy 63)
      (name.copy 63).chars long.chars) ∨
  ∃ j < i, ∃ inst other, (sourceInstructions input)[j]? = some inst ∧ inst.sought = some other ∧
    TakesSlot (namesBefore input (j + 1)) (name.copy 63).chars other

theorem evicts_iff {names : List (CString 63)} {raw other : List Byte}
    (h : table.symbols.map Symbol.name = names) :
    Evicts table raw other ↔ TakesSlot names raw other := by
  subst h
  constructor
  · rintro ⟨hne, hslot, symbol, hsymbol, hname⟩
    exact ⟨hne, hslot, _, List.mem_map_of_mem hsymbol, hname⟩
  · rintro ⟨hne, hslot, short, hshort, hname⟩
    obtain ⟨symbol, hsymbol, rfl⟩ := List.mem_map.mp hshort
    exact ⟨hne, hslot, symbol, hsymbol, hname⟩

theorem line_disturbs_iff {line : Line} {lines : List Line} {raw : List Byte} :
    line.Disturbs (tableBehind lines) raw ↔ ∃ long, line.defines = some long ∧
      (entered lines).length < 1024 ∧
      TakesSlot ((entered lines).map fun entry => entry.name.copy 63) raw long.chars := by
  have hhas := has_entered lines
  unfold Line.Disturbs
  simp only [hhas.length, evicts_iff hhas.names]

/-- The names of the lines and of the literals that are defined behind them. -/
theorem names_literals (input : List Byte) (i : ℕ) :
    ((literals ((sourceInstructions input).take i)).foldl defineLiteral
      (sourceTable symbolTableInit input)).symbols.map Symbol.name = namesBefore input i := by
  have hnames : (sourceTable symbolTableInit input).symbols.map Symbol.name =
      (entered (readSource input).lines).map fun entry => entry.name.copy 63 :=
    (has_entered (readSource input).lines).names
  have hstart : (sourceTable symbolTableInit input).nextStringAddr = 0x100#32 :=
    nextStringAddr_defineLines
  rw [symbols_defineLiterals, List.map_append, List.map_map, hstart, hnames]
  apply congrArg
  apply List.map_congr_left
  exact fun place _ => name_literalEntry place.1 place.2

/-- What an instruction looks up takes a slot where the table has its literals up to that one. -/
theorem instruction_disturbs_iff (stale : ℕ → Word → ℕ → Word) {input : List Byte} {j : ℕ}
    {inst : ParsedInstruction} {raw : List Byte}
    (hj : (sourceInstructions input)[j]? = some inst) :
    inst.Disturbs (tableBefore stale symbolTableInit input j) raw ↔
      ∃ other, inst.sought = some other ∧ TakesSlot (namesBefore input (j + 1)) raw other := by
  have hentries : SameEntries (tableBefore stale symbolTableInit input j)
      ((literals ((sourceInstructions input).take j)).foldl defineLiteral
        (sourceTable symbolTableInit input)) := encodeAll_entries _ _ _ ⟨rfl, rfl⟩
  have hnames := names_literals input (j + 1)
  have htake : (sourceInstructions input).take (j + 1) =
      (sourceInstructions input).take j ++ [inst] := by
    rw [List.take_add_one, hj]
    rfl
  rw [htake, literals, List.filterMap_append] at hnames
  unfold ParsedInstruction.Disturbs ParsedInstruction.sought
  cases hliteral : inst.literal with
  | some text =>
    rw [List.filterMap_cons_some hliteral, List.foldl_append] at hnames
    have hsymbols := (defineLiteral_congr text hentries).1
    have hkey : Evicts (defineLiteral (tableBefore stale symbolTableInit input j) text) raw
        (stringKey text).chars ↔ _ :=
      evicts_iff ((congrArg (List.map Symbol.name) hsymbols).trans hnames)
    simpa using hkey
  | none =>
    rw [List.filterMap_cons_none hliteral, List.filterMap_nil, List.append_nil] at hnames
    have hkept := (congrArg (List.map Symbol.name) hentries.1).trans hnames
    simp only [evicts_iff hkept]
    constructor
    · rintro ⟨i, short, hi, hop, htakes⟩
      exact ⟨short.chars, by simp [hi, hop, Operand.sought], htakes⟩
    · rintro ⟨other, hother, htakes⟩
      obtain ⟨i, hi, hsought⟩ := Option.bind_eq_some_iff.mp hother
      cases hop : inst.operand i with
      | label short =>
        rw [hop] at hsought
        obtain rfl := Option.some.inj hsought
        exact ⟨i, short, hi, hop, htakes⟩
      | _ =>
        rw [hop] at hsought
        cases hsought

theorem disturbed_iff (stale : ℕ → Word → ℕ → Word) {input : List Byte} {upto after : List Line}
    {i : ℕ} : Disturbed input upto after name i ↔
      (∃ front line behind, after = front ++ line :: behind ∧
        line.Disturbs (tableBehind (upto ++ front)) (name.copy 63).chars) ∨
      ∃ j < i, ∃ inst, (sourceInstructions input)[j]? = some inst ∧
        inst.Disturbs (tableBefore stale symbolTableInit input j) (name.copy 63).chars := by
  apply or_congr
  · simp only [line_disturbs_iff, exists_and_left]
  · constructor
    · rintro ⟨j, hj, inst, other, hinst, hother⟩
      exact ⟨j, hj, inst, hinst, (instruction_disturbs_iff stale hinst).mpr ⟨other, hother⟩⟩
    · rintro ⟨j, hj, inst, hinst, hdisturbs⟩
      obtain ⟨other, hother⟩ := (instruction_disturbs_iff stale hinst).mp hdisturbs
      exact ⟨j, hj, inst, other, hinst, hother⟩

/-- The last of the entries stands for so many instructions, as far as a word has room for them. No
entry stands for 0. -/
def LastAt (entries : List Entry) (count : ℕ) : Prop :=
  (entries.getLast?.elim 0 Entry.address).toNat % 4096 = count % 4096

/-- The entry that answers to a label's name has the label's address. It is the last one of the
name, or the last before the label's line while the cache remembers that it was found there. -/
structure AnswersRight (disturbed : Prop) (before lines : List Line) (name : CString 255) :
    Prop where
  remembered : ¬ disturbed → namesakes (entered before) name ≠ [] →
    LastAt (namesakes (entered before) name) (instructions before).length
  last : disturbed ∨ namesakes (entered before) name = [] →
    LastAt (namesakes (entered lines) name) (instructions before).length

/-- A name that its cell does not cut has one entry at most. -/
theorem length_named_le (hlength : name.chars.length < 63) (lines : List Line) :
    ((tableBehind lines).named (name.copy 63)).length ≤ 1 := by
  induction lines using List.reverseRecOn with
  | nil => exact Nat.zero_le 1
  | append_singleton lines line ih =>
    by_cases hnone : (tableBehind lines).named (name.copy 63) = []
    · cases hd : line.defines with
      | none =>
        rw [tableBehind_of_none lines hd]
        exact ih
      | some long =>
        obtain ⟨type, address, value, text, number, hadd⟩ := tableBehind_of_some lines hd
        rw [hadd, SymbolTable.named]
        rcases symbols_add with hs | ⟨-, hs⟩
        · rw [hs]
          exact ih
        · have hone := List.length_filter_le (fun symbol => symbol.name = name.copy 63)
            [newEntry long.chars type address value text number]
          rw [SymbolTable.named] at hnone
          rw [hs, List.filter_append, hnone]
          exact hone
    · have hsettled : (tableBehind lines).Settled (name.copy 63) := .inl hnone
      have hkept := @named_lines (name.copy 63) lines [line] hsettled
        fun other _ long _ hcut => by
          rw [copy_eq_of_short hlength hcut]
          exact hlength.le
      rw [hkept.1]
      exact ih

/-- What a search for a name finds if its cell does not cut it. -/
theorem found_short (stale : ℕ → Word → ℕ → Word) (hlength : name.chars.length < 63)
    (hsettled : (sourceTable symbolTableInit input).Settled (name.copy 63)) :
    (symbolTableFind (tableBefore stale symbolTableInit input i) (name.copy 63).chars).1 =
      ((sourceTable symbolTableInit input).named (name.copy 63)).getLast? := by
  have hone : ((sourceTable symbolTableInit input).named (name.copy 63)).length ≤ 1 :=
    length_named_le hlength _
  apply find_named
  rw [named_tableBefore hsettled]
  revert hone
  generalize (sourceTable symbolTableInit input).named (name.copy 63) = found
  intro hone
  match found with
  | [] => rfl
  | [symbol] => rfl
  | first :: second :: rest => simp at hone

/-- What the cache holds of a name of 63 characters behind its label's line. -/
theorem cached_label (hlength : (name.copy 63).chars = name.chars)
    (hother : ∀ line ∈ before, ∀ long, line.defines = some long → long.chars ≠ name.chars) :
    cached (tableBehind (before ++ [.label name number])) name.chars =
      if (tableBehind before).symbols.length < 1024 then
        ((tableBehind before).named (name.copy 63)).getLast?
      else none := by
  have hempty : cached (tableBehind before) name.chars = none := by
    obtain ⟨hlost, hkept⟩ := cached_lines [] before hother
    by_cases hdisturbed : ∃ front line behind, before = front ++ line :: behind ∧
        line.Disturbs (tableBehind ([] ++ front)) name.chars
    · exact hlost hdisturbed
    · exact hkept hdisturbed
  obtain ⟨type, address, value, text, number', hadd⟩ :=
    @tableBehind_of_some name (.label name number) before rfl
  rw [hadd]
  split
  · rename_i hroom
    rw [cached_add (pointing_tableBehind before) hroom, cached_find_self]
    rw [← hlength] at hempty ⊢
    exact find_last hempty
  · rename_i hfull
    rw [cached_add_full hfull, hempty]

/-- What a search finds that comes to a name of 63 characters with a label. -/
theorem found_long (stale : ℕ → Word → ℕ → Word) (hlength : (name.copy 63).chars = name.chars)
    (hi : i ≤ (sourceInstructions input).length)
    (hlines : (readSource input).lines = before ++ .label name number :: after)
    (hother : ∀ line ∈ before ++ after, ∀ long, line.defines = some long →
      long.chars ≠ name.chars) :
    (¬ Disturbed input (before ++ [.label name number]) after name i →
        (tableBehind before).named (name.copy 63) ≠ [] →
      (symbolTableFind (tableBefore stale symbolTableInit input i) (name.copy 63).chars).1 =
        ((tableBehind before).named (name.copy 63)).getLast?) ∧
    (Disturbed input (before ++ [.label name number]) after name i ∨
        (tableBehind before).named (name.copy 63) = [] →
      (symbolTableFind (tableBefore stale symbolTableInit input i) (name.copy 63).chars).1 =
        ((sourceTable symbolTableInit input).named (name.copy 63)).getLast?) := by
  obtain ⟨hbefore, hafter⟩ := List.forall_mem_append.mp hother
  have hsource : sourceTable symbolTableInit input =
      tableBehind (before ++ [.label name number] ++ after) := by
    rw [sourceTable, hlines, List.append_assoc]
    rfl
  have hsettled : (sourceTable symbolTableInit input).Settled (name.copy 63) := by
    rw [hsource]
    exact settled_tableBehind _ (.label name number) (by simp) name rfl
  have hholding : Holding (sourceTable symbolTableInit input) (name.copy 63)
      ((sourceTable symbolTableInit input).named (name.copy 63)) :=
    ⟨hsource ▸ pointing_tableBehind _, hsettled, rfl⟩
  obtain ⟨hholds, hlost, hkept⟩ := @cached_tableBefore symbolTableInit _ _ stale input hholding i hi
  obtain ⟨htaken, hleft⟩ := cached_lines (before ++ [.label name number]) after hafter
  have hlabel := @cached_label name before number hlength hbefore
  rw [hlength] at hlost hkept
  rw [← hsource] at htaken hleft
  rw [disturbed_iff stale, hlength]
  -- once the slot is empty or taken, a search finds the last entry
  have hlast : cached (sourceTable symbolTableInit input) name.chars = none →
      (symbolTableFind (tableBefore stale symbolTableInit input i) name.chars).1 =
        ((sourceTable symbolTableInit input).named (name.copy 63)).getLast? := by
    intro hnone
    rw [hnone] at hkept
    rw [← hlength]
    apply find_of_follows hholds.named
    rw [hlength]
    by_cases hsecond : ∃ j < i, ∃ inst, (sourceInstructions input)[j]? = some inst ∧
        inst.Disturbs (tableBefore stale symbolTableInit input j) name.chars
    · exact hlost hsecond
    · exact hkept hsecond
  constructor
  · intro hno hne
    obtain ⟨hfirst, hsecond⟩ := not_or.mp hno
    obtain ⟨symbol, hsymbol⟩ := List.getLast?_isSome.mpr hne |> Option.isSome_iff_exists.mp
    by_cases hroom : (tableBehind before).symbols.length < 1024
    · have hcached : cached (sourceTable symbolTableInit input) name.chars = some symbol := by
        rw [hleft hfirst, hlabel, if_pos hroom, hsymbol]
      rw [hsymbol, ← hlength]
      apply find_of_follows_some
      rw [hlength, ← hcached]
      exact hkept hsecond
    · have hcached : cached (sourceTable symbolTableInit input) name.chars = none := by
        rw [hleft hfirst, hlabel, if_neg hroom]
      have hfull : (tableBehind before).Full := Nat.not_lt.mp hroom
      rw [hlast hcached, hsource, List.append_assoc, SymbolTable.named, symbols_of_full hfull]
      rfl
  · rintro ((hfirst | hsecond) | hnil)
    · exact hlast (htaken hfirst)
    · rw [← hlength]
      apply find_of_follows hholds.named
      rw [hlength]
      exact hlost hsecond
    · by_cases hfirst : ∃ front line behind, after = front ++ line :: behind ∧
          line.Disturbs (tableBehind (before ++ [.label name number] ++ front)) name.chars
      · exact hlast (htaken hfirst)
      · apply hlast
        rw [hleft hfirst, hlabel, hnil]
        split <;> rfl

/-- What a search finds that comes to the name of a label which no other line labels. -/
theorem found_label (stale : ℕ → Word → ℕ → Word) (hlength : name.chars.length < 64)
    (hi : i ≤ (sourceInstructions input).length)
    (hlines : (readSource input).lines = before ++ .label name number :: after)
    (honce : ∀ other ∈ before ++ after, ∀ n, other ≠ .label name n) :
    (¬ Disturbed input (before ++ [.label name number]) after name i →
        (tableBehind before).named (name.copy 63) ≠ [] →
      (symbolTableFind (tableBefore stale symbolTableInit input i) (name.copy 63).chars).1 =
        ((tableBehind before).named (name.copy 63)).getLast?) ∧
    (Disturbed input (before ++ [.label name number]) after name i ∨
        (tableBehind before).named (name.copy 63) = [] →
      (symbolTableFind (tableBefore stale symbolTableInit input i) (name.copy 63).chars).1 =
        ((sourceTable symbolTableInit input).named (name.copy 63)).getLast?) := by
  have hsource : sourceTable symbolTableInit input =
      tableBehind (before ++ .label name number :: after) := by
    rw [sourceTable, hlines]
    rfl
  have hfits : (name.copy 63).chars = name.chars := name.copy_of_le (Nat.le_of_lt_succ hlength)
  by_cases hshort : name.chars.length < 63
  · have hsettled : (sourceTable symbolTableInit input).Settled (name.copy 63) := by
      rw [hsource]
      exact settled_tableBehind _ (.label name number) (by simp) name rfl
    have hfound := @found_short name input i stale hshort hsettled
    refine ⟨fun _ hne => ?_, fun _ => hfound⟩
    have hkept := @named_lines (name.copy 63) before (.label name number :: after) (.inl hne)
      fun other _ long _ hcut => by
        rw [copy_eq_of_short hshort hcut]
        exact hshort.le
    rw [hfound, hsource, hkept.1]
  · refine found_long stale hfits hi hlines fun other hother long hlong hchars => ?_
    obtain rfl : long = name := CString.ext_chars hchars
    cases other with
    | blank => cases hlong
    | instruction inst => cases hlong
    | label named n =>
      cases hlong
      exact honce _ hother n rfl
    | constant named value n =>
      cases hlong
      have hmem : Line.constant long value n ∈ (readSource input).lines := by
        rw [hlines]
        exact List.mem_append.mpr ((List.mem_append.mp hother).imp_right (List.mem_cons_of_mem _))
      rw [constant_name hmem] at hshort
      exact hshort (by decide)

/-- The address that a label's name is looked up with is the label's exactly if the right entry
answers. -/
theorem address_label_iff (stale : ℕ → Word → ℕ → Word) (hlength : name.chars.length < 64)
    (hi : i ≤ (sourceInstructions input).length)
    (hlines : (readSource input).lines = before ++ .label name number :: after)
    (honce : ∀ other ∈ before ++ after, ∀ n, other ≠ .label name n) :
    (addressOf (tableBefore stale symbolTableInit input i) (name.copy 63)).1.toNat % 4096 =
        (instructions before).length % 4096 ↔
      AnswersRight (Disturbed input (before ++ [.label name number]) after name i) before
        (readSource input).lines name := by
  obtain ⟨hremembered, hlast⟩ := @found_label name input before after number i stale hlength hi
    hlines honce
  have hbehind : sourceTable symbolTableInit input = tableBehind (readSource input).lines := rfl
  -- the entries of the table and of the text have the same addresses
  have hat : ∀ lines, (symbolTableFind (tableBefore stale symbolTableInit input i)
        (name.copy 63).chars).1 = ((tableBehind lines).named (name.copy 63)).getLast? →
      ((addressOf (tableBefore stale symbolTableInit input i) (name.copy 63)).1.toNat % 4096 =
          (instructions before).length % 4096 ↔
        LastAt (namesakes (entered lines) name) (instructions before).length) := by
    intro lines hfound
    have hlasts := congrArg List.getLast? ((has_entered lines).named name)
    rw [List.getLast?_map, List.getLast?_map] at hlasts
    have haddress : (addressOf (tableBefore stale symbolTableInit input i) (name.copy 63)).1 =
        (namesakes (entered lines) name).getLast?.elim 0 Entry.address := by
      rw [addressOf_find hfound]
      cases hsymbol : ((tableBehind lines).named (name.copy 63)).getLast? <;>
        cases hentry : (namesakes (entered lines) name).getLast? <;> simp_all
    rw [LastAt, haddress]
  have hnil := (has_entered before).named_eq_nil name
  rw [hbehind] at hlast
  by_cases hcase : Disturbed input (before ++ [.label name number]) after name i ∨
      namesakes (entered before) name = []
  · rw [hat _ (hlast (hcase.imp_right hnil.mpr))]
    refine ⟨fun h => ⟨fun hno hne => ?_, fun _ => h⟩, fun h => h.last hcase⟩
    exact absurd hcase (not_or.mpr ⟨hno, hne⟩)
  · obtain ⟨hno, hne⟩ := not_or.mp hcase
    rw [hat _ (hremembered hno (mt hnil.mp hne))]
    exact ⟨fun h => ⟨fun _ _ => h, fun hother => absurd hother hcase⟩,
      fun h => h.remembered hno hne⟩

end answer

/-- A label operand of `MOV` or, without brackets, of `LOAD` stands for the label's address if the
entry that answers to its name has this address. Any other is the first two characters of the name,
and right only by accident. -/
theorem label_operand_iff (stale : ℕ → Word → ℕ → Word) (input : List Byte)
    (output : CArray Word capacity)
    (h : (parserParse stale (parserInit input symbolTableInit output)).1 = true) (i : ℕ)
    (inst : ParsedInstruction) (hi : (sourceInstructions input)[i]? = some inst)
    (ht : inst.type ∈ valueTypes) (name : CString 255) (hop : Names inst name)
    (hcall : systemCall name.chars = none) (hlength : name.chars.length < 64)
    (before after : List Line) (line : ℕ)
    (hlines : (readSource input).lines = before ++ .label name line :: after)
    (honce : ∀ other ∈ before ++ after, ∀ n, other ≠ .label name n) :
    ∃ hc : i < capacity,
      ((decodeImmediate
          ((parserParse stale (parserInit input symbolTableInit output)).2.output ⟨i, hc⟩)).toNat =
        (instructions before).length % 4096 ↔
      if inst.type ≠ .store ∧ inst.operand 1 = namedOperand name then
        AnswersRight (Disturbed input (before ++ [.label name line]) after name i) before
          (readSource input).lines name
      else nameBits name = (instructions before).length % 4096) := by
  obtain ⟨hc, hword⟩ := parserParse_word h hi
  refine ⟨hc, ?_⟩
  rw [hword]
  have hlabel : namedOperand name = .label (name.copy 63) := by
    rw [namedOperand, hcall]
  simp only [valueTypes, List.mem_cons, List.not_mem_nil, or_false] at ht
  by_cases hlooked : inst.type ≠ .store ∧ inst.operand 1 = namedOperand name
  · have htype : inst.type = .mov ∨ inst.type = .load := by
      rcases ht with ht | ht | ht
      · exact .inl ht
      · exact .inr ht
      · exact absurd ht hlooked.1
    obtain ⟨hlt, -⟩ := List.getElem?_eq_some_iff.mp hi
    rw [if_pos hlooked, encode_label htype (hlooked.2.trans hlabel)]
    exact address_label_iff stale hlength hlt.le hlines honce
  · have hform : inst.type = .store ∧ inst.operand 1 = .label (name.copy 63) ∨
        inst.type ∈ [.load, .store] ∧ inst.operand 1 = .memoryLabel (name.copy 63) := by
      rcases hop with hop | ⟨hne, hop⟩
      · left
        have hstore : inst.type = .store := by
          by_contra hno
          exact hlooked ⟨hno, hop⟩
        exact ⟨hstore, hop.trans hlabel⟩
      · right
        refine ⟨?_, hop⟩
        rcases ht with ht | ht | ht
        · exact absurd ht hne
        · simp [ht]
        · simp [ht]
    rw [if_neg hlooked, encode_unresolved hform, front_copy]

/-- As many characters as a name keeps. -/
def fullName : List Byte := List.replicate 63 (ch 'A')

/-- A label, a longer one that starts with it, and an instruction that loads the first. -/
def twoNames : List Byte :=
  fullName ++ bytes ":\nNOP\n" ++ fullName ++ bytes "B:\nMOV R0, " ++ fullName

theorem label_operand_iff_twoNames : ∃ hc : 1 < 2,
    ((decodeImmediate ((parserParse (fun _ _ _ => 0) (parserInit twoNames
        symbolTableInit (fun _ => 0))).2.output ⟨1, hc⟩)).toNat =
      (instructions []).length % 4096 ↔
    if DezInstructionType.mov ≠ .store ∧
        Operand.label (.ofBytes 63 fullName) = namedOperand (.ofBytes 255 fullName) then
      AnswersRight (Disturbed twoNames [.label (.ofBytes 255 fullName) 1]
        [.blank, .instruction ⟨.nop, []⟩, .blank,
          .label (.ofBytes 255 (fullName ++ [ch 'B'])) 3, .blank,
          .instruction ⟨.mov, [.register 0, .label (.ofBytes 63 fullName)]⟩]
        (.ofBytes 255 fullName) 1) [] (readSource twoNames).lines (.ofBytes 255 fullName)
    else nameBits (.ofBytes 255 fullName) = (instructions []).length % 4096) :=
  label_operand_iff (fun _ _ _ => 0) twoNames (fun _ => 0) (by decide +kernel) 1
    ⟨.mov, [.register 0, .label (.ofBytes 63 fullName)]⟩ (by decide +kernel) (by decide)
    (.ofBytes 255 fullName) (.inl (by decide +kernel)) (by decide +kernel) (by decide +kernel) []
    [.blank, .instruction ⟨.nop, []⟩, .blank, .label (.ofBytes 255 (fullName ++ [ch 'B'])) 3,
      .blank, .instruction ⟨.mov, [.register 0, .label (.ofBytes 63 fullName)]⟩] 1
    (by decide +kernel) (by
      have hne : CString.ofBytes 255 (fullName ++ [ch 'B']) ≠ .ofBytes 255 fullName := by
        decide +kernel
      simp [hne])

/-- `STORE R0, A` after the label `A:` stores at 65, the code of the letter. -/
theorem store_takes_name :
    ¬ ∀ (capacity : ℕ) stale (input : List Byte) (output : CArray Word capacity),
      (parserParse stale (parserInit input symbolTableInit output)).1 = true →
      ∀ i inst, (sourceInstructions input)[i]? = some inst → inst.type ∈ valueTypes →
      ∀ name, Names inst name → systemCall name.chars = none → name.chars.length < 64 →
      ∀ before after line, (readSource input).lines = before ++ .label name line :: after →
      (∀ other ∈ before ++ after, ∀ n, other ≠ .label name n) → ∀ hc : i < capacity,
        (decodeImmediate
          ((parserParse stale (parserInit input symbolTableInit output)).2.output ⟨i, hc⟩)).toNat =
        (instructions before).length % 4096 := by
  intro h
  have hlow := h 1 (fun _ _ _ => 0) (bytes "A:\nSTORE R0, A") (fun _ => 0) (by decide) 0
    ⟨.store, [.register 0, .label (.ofBytes 63 (bytes "A"))]⟩ (by decide +kernel) (by decide)
    (.ofBytes 255 (bytes "A")) (.inl rfl) (by decide) (by decide) []
    [.blank, .instruction ⟨.store, [.register 0, .label (.ofBytes 63 (bytes "A"))]⟩] 1
    (by decide +kernel) (by simp) (by decide)
  exact absurd hlow (by decide)

end Dez.Assembler
