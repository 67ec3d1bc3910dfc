import Dez.Assembler.Entries

/-! Which entry a search finds where several share a name. -/
namespace Dez.Assembler

variable {table : SymbolTable} {name other raw : List Byte} {cut : CString 63} {symbol : Symbol}
  {type : SymbolType} {address value : Word} {text : Option (List Byte)} {number : ℕ}

/-- Every slot of the cache that is in use points at an entry. -/
def SymbolTable.Pointing (table : SymbolTable) : Prop :=
  ∀ slot i, table.hashTable slot = some i → i < table.symbols.length

/-- A search for the other name finds an entry, and takes the name's slot of the cache for it. -/
structure Evicts (table : SymbolTable) (name other : List Byte) : Prop where
  differs : other ≠ name
  slot : symbolHash other = symbolHash name
  found : ∃ symbol ∈ table.symbols, symbol.name.chars = other

section find

theorem find_of_cached (h : cached table name = some symbol) :
    symbolTableFind table name = (some symbol, table) := by
  unfold symbolTableFind
  rw [h]

theorem find_of_not_cached (h : cached table name = none) :
    (symbolTableFind table name).1 = (searchBackwards name table.symbols).map Prod.snd := by
  unfold symbolTableFind
  rw [h]
  cases searchBackwards name table.symbols with
  | none => rfl
  | some found => rfl

theorem searchBackwards_last (name : List Byte) (symbols : List Symbol) :
    (searchBackwards name symbols).map Prod.snd =
      (symbols.filter fun symbol => symbol.name.chars = name).getLast? := by
  induction symbols with
  | nil => rfl
  | cons symbol symbols ih =>
    unfold searchBackwards
    by_cases hname : symbol.name.chars = name
    · rw [List.filter_cons_of_pos (by simp [hname]), List.getLast?_cons, ← ih]
      cases searchBackwards name symbols with
      | none => simp [hname]
      | some found => rfl
    · rw [List.filter_cons_of_neg (by simp [hname]), ← ih]
      cases searchBackwards name symbols with
      | none => simp [hname]
      | some found => rfl

/-- A search the cache does not answer finds the last entry of the name. -/
theorem find_last (h : cached table cut.chars = none) :
    (symbolTableFind table cut.chars).1 = (table.named cut).getLast? := by
  have hsame : (fun symbol : Symbol => decide (symbol.name.chars = cut.chars)) =
      fun symbol => decide (symbol.name = cut) := by
    funext symbol
    exact decide_eq_decide.mpr ⟨CString.ext_chars, congrArg CString.chars⟩
  rw [find_of_not_cached h, searchBackwards_last, SymbolTable.named, hsame]

theorem find_isSome_iff :
    (symbolTableFind table name).1.isSome = true ↔
      ∃ symbol ∈ table.symbols, symbol.name.chars = name := by
  cases hfind : (symbolTableFind table name).1 with
  | none =>
    refine iff_of_false Bool.false_ne_true ?_
    rintro ⟨symbol, hsymbol, hname⟩
    exact find_eq_none hfind symbol hsymbol hname
  | some symbol => exact iff_of_true rfl ⟨symbol, find_eq_some hfind⟩

/-- What a search finds is in the cache afterwards. -/
theorem cached_find_self :
    cached (symbolTableFind table name).2 name = (symbolTableFind table name).1 := by
  cases hcached : cached table name with
  | some symbol => rw [find_of_cached hcached, hcached]
  | none =>
    unfold symbolTableFind
    rw [hcached]
    cases hsearch : searchBackwards name table.symbols with
    | none => exact hcached
    | some found =>
      obtain ⟨i, symbol⟩ := found
      obtain ⟨hi, hname⟩ := searchBackwards_eq_some hsearch
      simp [cached, hi, hname]

/-- The cache answers for a name from the slot of the name alone. -/
theorem cached_congr {after : SymbolTable} (hsymbols : after.symbols = table.symbols)
    (hslot : after.hashTable (symbolHash name) = table.hashTable (symbolHash name)) :
    cached after name = cached table name := by
  unfold cached
  rw [hsymbols, hslot]

theorem cached_other (hi : table.hashTable (symbolHash name) = some number)
    (hsymbol : table.symbols[number]? = some symbol) (hname : symbol.name.chars ≠ name) :
    cached table name = none := by
  simp [cached, hi, hsymbol, hname]

theorem cached_find_evicts (h : Evicts table name other) :
    cached (symbolTableFind table other).2 name = none := by
  obtain ⟨hne, hslot, hfound⟩ := h
  cases hcached : cached table other with
  | some symbol =>
    rw [find_of_cached hcached]
    simp only [cached, Option.bind_eq_bind, Option.bind_eq_some_iff] at hcached
    obtain ⟨i, hi, entry, hentry, hsame⟩ := hcached
    split at hsame
    · rename_i hname
      rw [hslot] at hi
      exact cached_other hi hentry fun heq => hne (hname.symm.trans heq)
    · cases hsame
  | none =>
    have hsome := find_isSome_iff.mpr hfound
    rw [find_of_not_cached hcached, Option.isSome_map] at hsome
    obtain ⟨⟨i, symbol⟩, hsearch⟩ := Option.isSome_iff_exists.mp hsome
    obtain ⟨hi, hname⟩ := searchBackwards_eq_some hsearch
    unfold symbolTableFind
    rw [hcached, hsearch]
    have hset : (table.hashTable.set (symbolHash other) (some i)) (symbolHash name) = some i := by
      rw [← hslot]
      exact CArray.set_self ..
    exact cached_other hset hi fun heq => hne (hname.symm.trans heq)

theorem cached_find_keeps (hne : other ≠ name) (h : ¬ Evicts table name other) :
    cached (symbolTableFind table other).2 name = cached table name := by
  cases hcached : cached table other with
  | some symbol => rw [find_of_cached hcached]
  | none =>
    unfold symbolTableFind
    rw [hcached]
    cases hsearch : searchBackwards other table.symbols with
    | none => rfl
    | some found =>
      obtain ⟨i, symbol⟩ := found
      obtain ⟨hi, hname⟩ := searchBackwards_eq_some hsearch
      have hslot : symbolHash name ≠ symbolHash other := fun hslot =>
        h ⟨hne, hslot.symm, symbol, List.mem_of_getElem? hi, hname⟩
      refine cached_congr rfl ?_
      exact CArray.set_apply .. |>.trans (if_neg hslot)

theorem pointing_find (h : table.Pointing) (name : List Byte) :
    (symbolTableFind table name).2.Pointing := by
  unfold symbolTableFind
  split
  · exact h
  · split
    · rename_i i symbol hsearch
      intro slot j hslot
      have hset : (table.hashTable.set (symbolHash name) (some i)) slot = some j := hslot
      rw [CArray.set_apply] at hset
      split at hset
      · cases hset
        exact (List.getElem?_eq_some_iff.mp (searchBackwards_eq_some hsearch).1).1
      · exact h slot j hset
    · exact h

end find

section add

/-- An addition leaves in the cache what its search left there. -/
theorem cached_add (h : table.Pointing) (hroom : table.symbols.length < 1024) :
    cached (symbolTableAdd table raw type address value text number).2.1 name =
      cached (symbolTableFind table raw).2 name := by
  unfold symbolTableAdd
  rw [dif_pos hroom]
  dsimp only
  split
  · rfl
  · unfold cached
    cases hslot : (symbolTableFind table raw).2.hashTable (symbolHash name) with
    | none => rfl
    | some i =>
      have hlt := pointing_find h raw _ i hslot
      simp only [Option.bind_eq_bind, Option.bind_some, List.getElem?_append_left hlt]

theorem cached_add_full (hfull : ¬ table.symbols.length < 1024) :
    cached (symbolTableAdd table raw type address value text number).2.1 name =
      cached table name := by
  unfold symbolTableAdd
  rw [dif_neg hfull]

theorem pointing_add (h : table.Pointing) :
    (symbolTableAdd table raw type address value text number).2.1.Pointing := by
  unfold symbolTableAdd
  split
  · dsimp only
    split
    · exact pointing_find h raw
    · intro slot i hslot
      have hlt := pointing_find h raw slot i hslot
      exact hlt.trans_le (by simp)
  · exact h

end add

section firstPass

variable {lines : List Line} {line : Line} {long : CString 255}

/-- Entering the line's name takes the name's slot of the cache for another entry. -/
def Line.Disturbs (line : Line) (table : SymbolTable) (name : List Byte) : Prop :=
  ∃ long, line.defines = some long ∧ table.symbols.length < 1024 ∧ Evicts table name long.chars

theorem pointing_tableBehind (lines : List Line) : (tableBehind lines).Pointing := by
  induction lines using List.reverseRecOn with
  | nil => exact fun slot i h => absurd h.symm (Option.some_ne_none i)
  | append_singleton lines line ih =>
    cases hd : line.defines with
    | none =>
      rw [tableBehind_of_none _ hd]
      exact ih
    | some long =>
      obtain ⟨type, address, value, text, number, hadd⟩ := tableBehind_of_some lines hd
      rw [hadd]
      exact pointing_add ih

/-- A line with another name leaves the cache's answer as it is, or takes its slot. -/
theorem cached_defineLine (lines : List Line)
    (hne : ∀ long, line.defines = some long → long.chars ≠ name) :
    (line.Disturbs (tableBehind lines) name →
        cached (tableBehind (lines ++ [line])) name = none) ∧
      (¬ line.Disturbs (tableBehind lines) name →
        cached (tableBehind (lines ++ [line])) name = cached (tableBehind lines) name) := by
  cases hd : line.defines with
  | none =>
    rw [tableBehind_of_none _ hd]
    refine ⟨?_, fun _ => rfl⟩
    rintro ⟨long, hlong, -⟩
    exact absurd (hlong.symm.trans hd) (Option.some_ne_none long)
  | some long =>
    obtain ⟨type, address, value, text, number, hadd⟩ := tableBehind_of_some lines hd
    rw [hadd]
    by_cases hroom : (tableBehind lines).symbols.length < 1024
    · rw [cached_add (pointing_tableBehind lines) hroom]
      constructor
      · rintro ⟨other, hother, -, hevicts⟩
        obtain rfl : other = long := Option.some.inj (hother.symm.trans hd)
        exact cached_find_evicts hevicts
      · intro hno
        exact cached_find_keeps (hne long hd) fun hevicts => hno ⟨long, hd, hroom, hevicts⟩
    · rw [cached_add_full hroom]
      refine ⟨?_, fun _ => rfl⟩
      rintro ⟨other, -, hlt, -⟩
      exact absurd hlt hroom

/-- A place in a list with one more element is a place in the list, or the end. -/
theorem exists_split_append {α : Type} {P : List α → α → Prop} {l : List α} {a : α} :
    (∃ before x after, l ++ [a] = before ++ x :: after ∧ P before x) ↔
      (∃ before x after, l = before ++ x :: after ∧ P before x) ∨ P l a := by
  constructor
  · rintro ⟨before, x, after, hsplit, h⟩
    rcases List.eq_nil_or_concat' after with rfl | ⟨after, last, rfl⟩
    · obtain ⟨rfl, hone⟩ := List.append_inj' hsplit rfl
      obtain rfl := List.singleton_inj.mp hone
      exact .inr h
    · rw [← List.cons_append, ← List.append_assoc] at hsplit
      exact .inl ⟨before, x, after, (List.append_inj' hsplit rfl).1, h⟩
  · rintro (⟨before, x, after, rfl, h⟩ | h)
    · exact ⟨before, x, after ++ [a], by simp, h⟩
    · exact ⟨l, a, [], rfl, h⟩

/-- So do any lines with other names: the slot stays taken. -/
theorem cached_lines (front lines : List Line)
    (hne : ∀ line ∈ lines, ∀ long, line.defines = some long → long.chars ≠ name) :
    ((∃ before line after, lines = before ++ line :: after ∧
        line.Disturbs (tableBehind (front ++ before)) name) →
      cached (tableBehind (front ++ lines)) name = none) ∧
    ((¬ ∃ before line after, lines = before ++ line :: after ∧
        line.Disturbs (tableBehind (front ++ before)) name) →
      cached (tableBehind (front ++ lines)) name = cached (tableBehind front) name) := by
  induction lines using List.reverseRecOn with
  | nil =>
    rw [List.append_nil]
    refine ⟨?_, fun _ => rfl⟩
    rintro ⟨before, line, after, hsplit, -⟩
    exact absurd hsplit.symm (List.append_ne_nil_of_right_ne_nil before (List.cons_ne_nil _ _))
  | append_singleton lines line ih =>
    obtain ⟨hfirst, hlast⟩ := List.forall_mem_append.mp hne
    obtain ⟨hlost, hkept⟩ := ih hfirst
    obtain ⟨htaken, hleft⟩ := cached_defineLine (front ++ lines)
      (hlast line (List.mem_singleton_self line))
    rw [← List.append_assoc, @exists_split_append _ fun before (line : Line) =>
      line.Disturbs (tableBehind (front ++ before)) name]
    by_cases hdisturbs : line.Disturbs (tableBehind (front ++ lines)) name
    · exact ⟨fun _ => htaken hdisturbs, fun hno => absurd (.inr hdisturbs) hno⟩
    · rw [hleft hdisturbs]
      exact ⟨fun h => hlost (h.resolve_right hdisturbs), fun hno => hkept fun h => hno (.inl h)⟩

end firstPass

section secondPass

variable {inst : ParsedInstruction} {long : CString 255} {found : List Symbol}
  {a b c last : Option Symbol}

/-- The search for the instruction's literal or label takes the name's slot of the cache. -/
def ParsedInstruction.Disturbs (inst : ParsedInstruction) (table : SymbolTable)
    (name : List Byte) : Prop :=
  match inst.literal with
  | some text => Evicts (defineLiteral table text) name (stringKey text).chars
  | none => ∃ i short, searchedOperand inst.type = some i ∧ inst.operand i = .label short ∧
      Evicts table name short.chars

/-- The table points at its entries, and those of the name are settled. -/
structure Holding (table : SymbolTable) (cut : CString 63) (found : List Symbol) : Prop where
  pointing : table.Pointing
  settled : table.Settled cut
  named : table.named cut = found

/-- The cache answers as before, or now with the last entry of the name. -/
def Follows (last before after : Option Symbol) : Prop :=
  after = before ∨ before = none ∧ after = last

theorem Follows.trans (h : Follows last a b) (h' : Follows last b c) : Follows last a c := by
  rcases h with rfl | ⟨rfl, rfl⟩
  · exact h'
  · rcases h' with rfl | ⟨-, rfl⟩
    · exact .inr ⟨rfl, rfl⟩
    · exact .inr ⟨rfl, rfl⟩

theorem Holding.find (h : Holding table cut found) (name : List Byte) :
    Holding (symbolTableFind table name).2 cut found := by
  have hsymbols := symbols_find table name
  refine ⟨pointing_find h.pointing name, ?_, ?_⟩
  · unfold SymbolTable.Settled SymbolTable.Full SymbolTable.named
    rw [hsymbols]
    exact h.settled
  · unfold SymbolTable.named
    rw [hsymbols]
    exact h.named

/-- A search that does not take the slot. -/
theorem follows_find (h : Holding table cut found) (hno : ¬ Evicts table cut.chars name) :
    Follows found.getLast? (cached table cut.chars)
      (cached (symbolTableFind table name).2 cut.chars) := by
  by_cases hself : name = cut.chars
  · subst hself
    rw [cached_find_self]
    cases hcached : cached table cut.chars with
    | some symbol =>
      left
      rw [find_of_cached hcached]
    | none =>
      right
      rw [find_last hcached, h.named]
      exact ⟨rfl, rfl⟩
  · exact .inl (cached_find_keeps hself hno)

/-- Entering a literal, unless its key takes the slot. -/
theorem Holding.literal (h : Holding table cut found) (string : CString 255) :
    Holding (defineLiteral table string) cut found ∧
      (¬ Evicts table cut.chars (stringKey string).chars →
        Follows found.getLast? (cached table cut.chars)
          (cached (defineLiteral table string) cut.chars)) := by
  let allocated := (symbolTableAllocateString table string.chars).2
  have hallocated : Holding allocated cut found := ⟨h.pointing, h.settled, h.named⟩
  have hnamed := @named_defineLiteral table cut string h.settled
  refine ⟨⟨pointing_add hallocated.pointing, ?_, hnamed.trans h.named⟩, fun hno => ?_⟩
  · refine h.settled.imp (fun hne => ?_) full_defineLiteral
    rwa [hnamed]
  · by_cases hroom : allocated.symbols.length < 1024
    · unfold defineLiteral symbolTableDefineString
      rw [cached_add hallocated.pointing hroom]
      exact follows_find hallocated fun hevicts =>
        hno ⟨hevicts.differs, hevicts.slot, hevicts.found⟩
    · unfold defineLiteral symbolTableDefineString
      rw [cached_add_full hroom]
      exact .inl rfl

theorem Evicts.literal (string : CString 255) (h : Evicts table name other) :
    Evicts (defineLiteral table string) name other := by
  obtain ⟨hne, hslot, symbol, hsymbol, hname⟩ := h
  refine ⟨hne, hslot, symbol, ?_, hname⟩
  unfold defineLiteral symbolTableDefineString
  rcases symbols_add with hs | ⟨-, hs⟩
  · rw [hs]
    exact hsymbol
  · rw [hs]
    exact List.mem_append_left _ hsymbol

/-- What encoding one instruction does to the cache's answer. -/
theorem cached_search (h : Holding table cut found) (inst : ParsedInstruction) :
    Holding (inst.search table).2 cut found ∧
      (inst.Disturbs table cut.chars → cached (inst.search table).2 cut.chars = none) ∧
      (¬ inst.Disturbs table cut.chars →
        Follows found.getLast? (cached table cut.chars)
          (cached (inst.search table).2 cut.chars)) := by
  unfold ParsedInstruction.search ParsedInstruction.Disturbs
  cases inst.literal with
  | some string =>
    obtain ⟨hdefined, hfollows⟩ := h.literal string
    dsimp only
    rw [addressOf_table]
    refine ⟨hdefined.find _, cached_find_evicts, fun hno => ?_⟩
    exact (hfollows fun hevicts => hno (hevicts.literal string)).trans (follows_find hdefined hno)
  | none =>
    dsimp only
    cases hsearched : searchedOperand inst.type with
    | none =>
      refine ⟨h, ?_, fun _ => .inl rfl⟩
      rintro ⟨i, short, hi, -⟩
      exact absurd hi.symm (Option.some_ne_none i)
    | some i =>
      dsimp only
      unfold Operand.search
      split
      · rename_i short hop
        rw [addressOf_table]
        refine ⟨h.find _, ?_, fun hno => ?_⟩
        · rintro ⟨j, other, hj, hother, hevicts⟩
          obtain rfl := Option.some.inj hj
          cases hop.symm.trans hother
          exact cached_find_evicts hevicts
        · exact follows_find h fun hevicts => hno ⟨i, short, rfl, hop, hevicts⟩
      · rename_i hlabel
        refine ⟨h, ?_, fun _ => .inl rfl⟩
        rintro ⟨j, other, hj, hother, -⟩
        obtain rfl := Option.some.inj hj
        exact absurd hother (hlabel other)

theorem encodeAll_append (stale : Word → ℕ → Word) (start : Word) (table : SymbolTable)
    (insts : List ParsedInstruction) (inst : ParsedInstruction) :
    (encodeAll stale start table (insts ++ [inst])).2 =
      (inst.search (encodeAll stale start table insts).2).2 := by
  induction insts generalizing start table with
  | nil =>
    obtain ⟨word, hsearch⟩ := encode_eq_search (stale start) inst
    exact (hsearch table).2
  | cons first insts ih => exact ih _ _

variable {stale : ℕ → Word → ℕ → Word} {input : List Byte}

theorem tableBefore_succ {i : ℕ} (hi : (sourceInstructions input)[i]? = some inst) :
    tableBefore stale table input (i + 1) = (inst.search (tableBefore stale table input i)).2 := by
  unfold tableBefore
  rw [List.take_add_one, hi]
  exact encodeAll_append ..

/-- The second pass leaves the cache's answer, or another name takes the slot; then a search finds
the last entry. -/
theorem cached_tableBefore (h : Holding (sourceTable table input) cut found) {i : ℕ}
    (hi : i ≤ (sourceInstructions input).length) :
    Holding (tableBefore stale table input i) cut found ∧
      ((∃ j < i, ∃ inst, (sourceInstructions input)[j]? = some inst ∧
          inst.Disturbs (tableBefore stale table input j) cut.chars) →
        Follows found.getLast? none (cached (tableBefore stale table input i) cut.chars)) ∧
      ((¬ ∃ j < i, ∃ inst, (sourceInstructions input)[j]? = some inst ∧
          inst.Disturbs (tableBefore stale table input j) cut.chars) →
        Follows found.getLast? (cached (sourceTable table input) cut.chars)
          (cached (tableBefore stale table input i) cut.chars)) := by
  induction i with
  | zero =>
    refine ⟨h, ?_, fun _ => .inl rfl⟩
    rintro ⟨j, hj, -⟩
    exact absurd hj (Nat.not_lt_zero j)
  | succ i ih =>
    obtain ⟨hholds, hlost, hkept⟩ := ih (Nat.le_of_succ_le hi)
    have hinst := List.getElem?_eq_getElem (Nat.lt_of_succ_le hi)
    obtain ⟨hnext, htaken, hleft⟩ := cached_search hholds (sourceInstructions input)[i]
    rw [tableBefore_succ hinst]
    by_cases hdisturbs : (sourceInstructions input)[i].Disturbs (tableBefore stale table input i)
        cut.chars
    · refine ⟨hnext, fun _ => .inl (htaken hdisturbs), fun hno => ?_⟩
      exact absurd ⟨i, Nat.lt_succ_self i, _, hinst, hdisturbs⟩ hno
    · refine ⟨hnext, ?_, fun hno => ?_⟩
      · rintro ⟨j, hj, inst, hget, hother⟩
        have hlt : j < i := by
          refine Nat.lt_of_le_of_ne (Nat.le_of_lt_succ hj) ?_
          rintro rfl
          obtain rfl := Option.some.inj (hget.symm.trans hinst)
          exact hdisturbs hother
        exact (hlost ⟨j, hlt, inst, hget, hother⟩).trans (hleft hdisturbs)
      · refine (hkept ?_).trans (hleft hdisturbs)
        rintro ⟨j, hj, hother⟩
        exact hno ⟨j, Nat.lt_succ_of_lt hj, hother⟩

/-- What a search finds where the cache has no answer of its own. -/
theorem find_of_follows (h : table.named cut = found)
    (hfollows : Follows found.getLast? none (cached table cut.chars)) :
    (symbolTableFind table cut.chars).1 = found.getLast? := by
  cases hcached : cached table cut.chars with
  | none => rw [find_last hcached, h]
  | some symbol =>
    rw [hcached] at hfollows
    rw [find_of_cached hcached]
    exact (hfollows.resolve_left (Option.some_ne_none symbol)).2

theorem find_of_follows_some (hcached : Follows found.getLast? (some symbol)
    (cached table cut.chars)) : (symbolTableFind table cut.chars).1 = some symbol := by
  rcases hcached with hcached | ⟨hnone, -⟩
  · rw [find_of_cached hcached]
  · exact absurd hnone (Option.some_ne_none symbol)

end secondPass

end Dez.Assembler
