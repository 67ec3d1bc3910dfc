import Dez.Toolchain
import Dez.Assembler.StringData
import Dez.Assembler.Definitions

/-! Which string literals of a text have storage of their own. -/
namespace Dez.Assembler
open Toolchain (literalAddress)

variable {capacity : ℕ} {names : List (CString 63)} {address : Word} {text : CString 255}
  {texts : List (CString 255)} {input : List Byte} {stale : ℕ → Word → ℕ → Word}
  {place : Word × CString 255}

/-- The bytes of literals before the first occurrence of a text. -/
def literalOffset (texts : List (CString 255)) (text : CString 255) : ℕ :=
  literalSpace (texts.takeWhile (· ≠ text))

section offsets

variable {s t : CString 255}

theorem literalOffset_cons_self (text : CString 255) (texts : List (CString 255)) :
    literalOffset (text :: texts) text = 0 := by
  rw [literalOffset, List.takeWhile_cons_of_neg (by simp)]
  rfl

theorem literalOffset_cons {first : CString 255} (h : first ≠ text) :
    literalOffset (first :: texts) text =
      (literalBytes first).length + literalOffset texts text := by
  rw [literalOffset, List.takeWhile_cons_of_pos (by simpa using h)]
  rfl

/-- A text's offset does not depend on what follows its first occurrence. -/
theorem literalOffset_append (h : text ∈ texts) (more : List (CString 255)) :
    literalOffset (texts ++ more) text = literalOffset texts text := by
  induction texts with
  | nil => cases h
  | cons first texts ih =>
    rw [List.cons_append]
    by_cases hfirst : first = text
    · subst hfirst
      rw [literalOffset_cons_self, literalOffset_cons_self]
    · have htail := (List.mem_cons.mp h).resolve_left fun he => hfirst he.symm
      rw [literalOffset_cons hfirst, literalOffset_cons hfirst, ih htail]

theorem literalSpace_cons (first : CString 255) (texts : List (CString 255)) :
    literalSpace (first :: texts) = (literalBytes first).length + literalSpace texts := rfl

theorem literalOffset_le (h : text ∈ texts) :
    literalOffset texts text + (literalBytes text).length ≤ literalSpace texts := by
  induction texts with
  | nil => cases h
  | cons first texts ih =>
    rw [literalSpace_cons]
    by_cases hfirst : first = text
    · subst hfirst
      rw [literalOffset_cons_self]
      omega
    · have htail := ih ((List.mem_cons.mp h).resolve_left fun he => hfirst he.symm)
      rw [literalOffset_cons hfirst]
      omega

/-- Of two texts the one that occurs first ends where the other begins, or before. -/
theorem literalOffset_order (hs : s ∈ texts) (ht : t ∈ texts) (hne : s ≠ t) :
    literalOffset texts s + (literalBytes s).length ≤ literalOffset texts t ∨
      literalOffset texts t + (literalBytes t).length ≤ literalOffset texts s := by
  induction texts with
  | nil => cases hs
  | cons first texts ih =>
    by_cases hfs : first = s
    · subst hfs
      rw [literalOffset_cons_self, literalOffset_cons hne]
      omega
    · by_cases hft : first = t
      · subst hft
        rw [literalOffset_cons_self, literalOffset_cons hfs]
        omega
      · have hs' := (List.mem_cons.mp hs).resolve_left fun he => hfs he.symm
        have ht' := (List.mem_cons.mp ht).resolve_left fun he => hft he.symm
        rw [literalOffset_cons hfs, literalOffset_cons hft]
        have horder := ih hs' ht'
        omega

end offsets

section places

/-- The key of a literal is entered once, and never when the name was there before. -/
theorem keys_placeLiterals (names : List (CString 63)) (address : Word)
    (texts : List (CString 255)) :
    ((placeLiterals names address texts).map fun place => stringKey place.2).Nodup ∧
      ∀ place ∈ placeLiterals names address texts, stringKey place.2 ∉ names := by
  induction texts generalizing names address with
  | nil => exact ⟨List.nodup_nil, by simp [placeLiterals]⟩
  | cons text texts ih =>
    unfold placeLiterals
    dsimp only
    split
    · rename_i hnew
      obtain ⟨hnodup, hnames⟩ := ih (names ++ [stringKey text])
        (address + BitVec.ofNat 32 (literalBytes text).length)
      refine ⟨List.nodup_cons.mpr ⟨?_, hnodup⟩, ?_⟩
      · intro hmem
        obtain ⟨place, hplace, hkey⟩ := List.mem_map.mp hmem
        exact hnames place hplace (by simp [hkey])
      · rw [List.forall_mem_cons]
        refine ⟨hnew.2, ?_⟩
        intro place hplace hold
        exact hnames place hplace (List.mem_append_left _ hold)
    · exact ih names _

/-- The different texts that have no name yet. -/
def unplaced (names : List (CString 63)) (texts : List (CString 255)) : Finset (CString 255) :=
  (texts.filter fun text => !names.contains (stringKey text)).toFinset

theorem mem_unplaced :
    text ∈ unplaced names texts ↔ text ∈ texts ∧ stringKey text ∉ names := by
  simp [unplaced]

theorem unplaced_cons_subset (names : List (CString 63)) (text : CString 255)
    (texts : List (CString 255)) : unplaced names texts ⊆ unplaced names (text :: texts) := by
  intro other hother
  obtain ⟨hmem, hkey⟩ := mem_unplaced.mp hother
  exact mem_unplaced.mpr ⟨List.mem_cons_of_mem _ hmem, hkey⟩

theorem card_unplaced_le (names : List (CString 63)) (texts : List (CString 255)) :
    (unplaced names texts).card ≤ texts.toFinset.card := by
  apply Finset.card_le_card
  intro text htext
  exact List.mem_toFinset.mpr (mem_unplaced.mp htext).1

/-- Entering a name leaves one text fewer without. -/
theorem card_unplaced_lt (hnew : stringKey text ∉ names) :
    (unplaced (names ++ [stringKey text]) texts).card < (unplaced names (text :: texts)).card := by
  apply Finset.card_lt_card
  rw [Finset.ssubset_iff_of_subset]
  · refine ⟨text, mem_unplaced.mpr ⟨List.mem_cons_self, hnew⟩, ?_⟩
    intro hmem
    exact (mem_unplaced.mp hmem).2 (by simp)
  · intro other hother
    obtain ⟨hmem, hkey⟩ := mem_unplaced.mp hother
    apply unplaced_cons_subset
    exact mem_unplaced.mpr ⟨hmem, fun hold => hkey (List.mem_append_left _ hold)⟩

/-- With room for all and keys apart a text gets the address its first occurrence comes to. -/
theorem placed_first (hmem : text ∈ texts) (hnew : stringKey text ∉ names)
    (hkeys : ∀ other ∈ texts, stringKey other = stringKey text → other = text)
    (hroom : names.length + (unplaced names texts).card ≤ 1024) :
    (address + BitVec.ofNat 32 (literalOffset texts text), text) ∈
      placeLiterals names address texts := by
  induction texts generalizing names address with
  | nil => cases hmem
  | cons first texts ih =>
    have hpos : 0 < (unplaced names (first :: texts)).card := by
      apply Finset.card_pos.mpr
      exact ⟨text, mem_unplaced.mpr ⟨hmem, hnew⟩⟩
    have hfull : names.length < 1024 := by omega
    unfold placeLiterals
    dsimp only
    by_cases hfirst : first = text
    · subst hfirst
      rw [if_pos ⟨hfull, hnew⟩, literalOffset_cons_self, BitVec.add_zero]
      exact List.mem_cons_self
    · have hoffset : address + BitVec.ofNat 32 (literalOffset (first :: texts) text) =
          address + BitVec.ofNat 32 (literalBytes first).length +
            BitVec.ofNat 32 (literalOffset texts text) := by
        rw [literalOffset_cons hfirst, BitVec.ofNat_add, BitVec.add_assoc]
      have htail : text ∈ texts := (List.mem_cons.mp hmem).resolve_left fun he => hfirst he.symm
      obtain ⟨hkey, hkeys⟩ := List.forall_mem_cons.mp hkeys
      rw [hoffset]
      split
      · rename_i hentered
        apply List.mem_cons_of_mem
        apply ih htail _ hkeys
        · have hlt := @card_unplaced_lt names first texts hentered.2
          rw [List.length_append, List.length_singleton]
          omega
        · rw [List.mem_append, List.mem_singleton]
          rintro (hold | hsame)
          · exact hnew hold
          · exact hfirst (hkey hsame.symm)
      · apply ih htail hnew hkeys
        have hle := Finset.card_le_card (unplaced_cons_subset names first texts)
        omega

end places

section stored

/-- The offsets of different texts, terminators included, differ in 32 bits too. -/
def OffsetsApart (texts : List (CString 255)) : Prop :=
  ∀ s ∈ texts, ∀ t ∈ texts, s ≠ t → ∀ x ≤ s.chars.length, ∀ y ≤ t.chars.length,
    (literalOffset texts s + x) % 2 ^ 32 ≠ (literalOffset texts t + y) % 2 ^ 32

/-- Short of 4 GiB of literals they never do. -/
theorem offsetsApart_of_space (h : literalSpace texts ≤ 2 ^ 32) : OffsetsApart texts := by
  intro s hs t ht hne x hx y hy heq
  have hends := literalOffset_le hs
  have hendt := literalOffset_le ht
  have horder := literalOffset_order hs ht hne
  have hlens : (literalBytes s).length = s.chars.length + 1 := by simp [literalBytes]
  have hlent : (literalBytes t).length = t.chars.length + 1 := by simp [literalBytes]
  rw [Nat.mod_eq_of_lt (by omega), Nat.mod_eq_of_lt (by omega)] at heq
  omega

/-- A `MOV` at instruction `i` loads the literal. -/
def Loads (input : List Byte) (i : ℕ) (text : CString 255) : Prop :=
  ∃ inst, (sourceInstructions input)[i]? = some inst ∧ inst.literal = some text

theorem mem_literals_iff :
    text ∈ literals (sourceInstructions input) ↔ ∃ i, Loads input i text := by
  rw [literals, List.mem_filterMap]
  constructor
  · rintro ⟨inst, hinst, hl⟩
    obtain ⟨i, hi⟩ := List.getElem?_of_mem hinst
    exact ⟨i, inst, hi, hl⟩
  · rintro ⟨i, inst, hi, hl⟩
    exact ⟨inst, List.mem_of_getElem? hi, hl⟩

/-- When the literals of a text have storage of their own: their keys, the first 57 characters after
the prefix, tell them apart and name no label or constant, the table has room for all of them, and
their addresses do not run into each other past the end of the 32 bits. -/
structure LiteralsApart (input : List Byte) : Prop where
  unnamed : ∀ text ∈ literals (sourceInstructions input), ∀ line ∈ (readSource input).lines,
    line.key ≠ some (stringKey text)
  keys : ∀ s ∈ literals (sourceInstructions input), ∀ t ∈ literals (sourceInstructions input),
    stringKey s = stringKey t → s = t
  room : (sourceTable symbolTableInit input).symbols.length +
    (literals (sourceInstructions input)).toFinset.card ≤ 1024
  unwrapped : literalSpace (literals (sourceInstructions input)) ≤ 2 ^ 32 ∨
    OffsetsApart (literals (sourceInstructions input))

/-- Each literal a `MOV` loads has storage of its own: the word takes the address of a string entry
with its text, two addresses are the same exactly if the texts are, and no byte of one text, its
terminator included, is another's. -/
structure StoredApart (stale : ℕ → Word → ℕ → Word) (input : List Byte)
    (output : CArray Word capacity) : Prop where
  used : ∀ i inst text, (sourceInstructions input)[i]? = some inst → inst.literal = some text →
    ∃ hc : i < capacity,
      (parserParse stale (parserInit input symbolTableInit output)).2.output ⟨i, hc⟩ =
        parserEncodeMov (inst.reg 0) (literalAddress stale input i text)
  allocated : ∀ i text, Loads input i text → literalEntry (literalAddress stale input i text) text ∈
    (parserParse stale (parserInit input symbolTableInit output)).2.symbolTable.symbols
  same : ∀ i j s t, Loads input i s → Loads input j t →
    (literalAddress stale input i s = literalAddress stale input j t ↔ s = t)
  apart : ∀ i j s t, Loads input i s → Loads input j t → s ≠ t →
    ∀ x ≤ s.chars.length, ∀ y ≤ t.chars.length,
      literalAddress stale input i s + BitVec.ofNat 32 x ≠
        literalAddress stale input j t + BitVec.ofNat 32 y

theorem notMem_names {table : SymbolTable} {name : CString 63} :
    name ∉ table.symbols.map Symbol.name ↔ table.named name = [] := by
  rw [named_eq_nil]
  simp

/-- A placed literal is what a search for its key finds. -/
theorem find_placed {table other : SymbolTable} (hsame : other.symbols =
      (texts.foldl defineLiteral table).symbols)
    (h : place ∈ placeLiterals (table.symbols.map Symbol.name) table.nextStringAddr texts) :
    (symbolTableFind other (stringKey place.2).chars).1 = some (literalEntry place.1 place.2) := by
  obtain ⟨hnodup, hnames⟩ := keys_placeLiterals (table.symbols.map Symbol.name)
    table.nextStringAddr texts
  rw [symbols_defineLiterals] at hsame
  apply find_unique
  · rw [hsame]
    exact List.mem_append_right _ (List.mem_map.mpr ⟨place, h, rfl⟩)
  · rw [name_literalEntry]
  · intro sym hsym hname
    rw [hsame, List.mem_append] at hsym
    rcases hsym with hold | hplaced
    · have hkey : sym.name = stringKey place.2 := CString.ext_chars hname
      exact absurd (List.mem_map.mpr ⟨sym, hold, hkey⟩) (hnames place h)
    · obtain ⟨other, hother, rfl⟩ := List.mem_map.mp hplaced
      rw [name_literalEntry] at hname
      rw [List.inj_on_of_nodup_map hnodup hother h (CString.ext_chars hname)]

/-- The symbols in which instruction `i` looks its literal up. -/
theorem symbols_tableBefore (stale : ℕ → Word → ℕ → Word) (input : List Byte) (i : ℕ)
    (text : CString 255) :
    (defineLiteral (tableBefore stale symbolTableInit input i) text).symbols =
      ((literals ((sourceInstructions input).take i) ++ [text]).foldl defineLiteral
        (sourceTable symbolTableInit input)).symbols := by
  rw [List.foldl_append]
  exact (defineLiteral_congr text (encodeAll_entries (stale 2) 0#32 _ ⟨rfl, rfl⟩)).1

/-- Each literal of a text gets an entry of its own. -/
structure LiteralsEntered (input : List Byte) : Prop where
  new : ∀ text ∈ literals (sourceInstructions input),
    stringKey text ∉ (sourceTable symbolTableInit input).symbols.map Symbol.name
  keys : ∀ s ∈ literals (sourceInstructions input), ∀ t ∈ literals (sourceInstructions input),
    stringKey s = stringKey t → s = t
  room : (sourceTable symbolTableInit input).symbols.length +
    (literals (sourceInstructions input)).toFinset.card ≤ 1024

/-- Then they are placed at the offsets of their first occurrences, as far as the text is read. -/
theorem LiteralsEntered.placed (h : LiteralsEntered input)
    (hsub : ∀ text ∈ texts, text ∈ literals (sourceInstructions input)) (hmem : text ∈ texts) :
    (0x100#32 + BitVec.ofNat 32 (literalOffset texts text), text) ∈
      placeLiterals ((sourceTable symbolTableInit input).symbols.map Symbol.name) 0x100#32
        texts := by
  have hcard : (unplaced ((sourceTable symbolTableInit input).symbols.map Symbol.name)
      texts).card ≤ (literals (sourceInstructions input)).toFinset.card := by
    apply (card_unplaced_le _ _).trans
    apply Finset.card_le_card
    intro other hother
    exact List.mem_toFinset.mpr (hsub other (List.mem_toFinset.mp hother))
  have hroom := h.room
  apply placed_first hmem (h.new text (hsub text hmem))
  · intro other hother hkey
    exact h.keys other (hsub other hother) text (hsub text hmem) hkey
  · rw [List.length_map]
    omega

/-- A literal that is entered is at the offset of its first occurrence. -/
theorem LiteralsEntered.at_offset (h : LiteralsEntered input) (stale : ℕ → Word → ℕ → Word) {i : ℕ}
    (hi : Loads input i text) : literalAddress stale input i text =
      0x100#32 + BitVec.ofNat 32 (literalOffset (literals (sourceInstructions input)) text) := by
  obtain ⟨inst, hinst, hl⟩ := hi
  have hsplit := literals_split hinst hl
  rw [List.append_cons] at hsplit
  have hmem : text ∈ literals ((sourceInstructions input).take i) ++ [text] := by simp
  have hplaced := h.placed (fun other hother => hsplit ▸ List.mem_append_left _ hother) hmem
  have hstart : (sourceTable symbolTableInit input).nextStringAddr = 0x100#32 :=
    nextStringAddr_defineLines
  rw [← hstart] at hplaced ⊢
  rw [literalAddress, hsplit, literalOffset_append hmem]
  exact addressOf_find (find_placed (symbols_tableBefore stale input i text) hplaced)

theorem literalEntry_inj {a b : Word} {s t : CString 255}
    (h : literalEntry a s = literalEntry b t) : a = b ∧ s = t := by
  have hvalue : CString.ofBytes 255 s.chars = CString.ofBytes 255 t.chars :=
    congrArg Symbol.stringValue h
  have hs : CString.ofBytes 255 s.chars = s := s.copy_self
  have ht : CString.ofBytes 255 t.chars = t := t.copy_self
  exact ⟨congrArg Symbol.address h, hs.symm.trans (hvalue.trans ht)⟩

theorem entry_mem_iff {a : Word} : literalEntry a text ∈
    (literalTable symbolTableInit input).symbols ↔ (a, text) ∈ storedLiterals input := by
  have hmem : literalEntry a text ∈ (literalTable symbolTableInit input).symbols ↔
      literalEntry a text ∈
        (literalTable symbolTableInit input).symbols.filter Symbol.isString := by
    rw [List.mem_filter]
    exact (and_iff_left rfl).symm
  rw [hmem, strings_literalTable, List.mem_map]
  constructor
  · rintro ⟨⟨b, t⟩, hplace, heq⟩
    obtain ⟨rfl, rfl⟩ := literalEntry_inj heq
    exact hplace
  · intro hplace
    exact ⟨_, hplace, rfl⟩

/-- Addresses agree as far as 32 bits of their offsets do. -/
theorem place_eq_iff (a b x y : ℕ) :
    0x100#32 + BitVec.ofNat 32 a + BitVec.ofNat 32 x =
      0x100#32 + BitVec.ofNat 32 b + BitVec.ofNat 32 y ↔
        (a + x) % 2 ^ 32 = (b + y) % 2 ^ 32 := by
  rw [BitVec.add_assoc, BitVec.add_assoc, BitVec.add_right_inj, ← BitVec.ofNat_add,
    ← BitVec.ofNat_add, ← BitVec.toNat_inj, BitVec.toNat_ofNat, BitVec.toNat_ofNat]

theorem encode_literal {stale : ℕ → Word} {table : SymbolTable} {inst : ParsedInstruction}
    (h : inst.literal = some text) : (parserEncodeInstruction stale table inst).1 =
      parserEncodeMov (inst.reg 0) (stringAddress table text).1 := by
  unfold ParsedInstruction.literal at h
  split at h
  · rename_i string htype hop
    cases h
    unfold parserEncodeInstruction
    simp only [htype, hop]
  · cases h

/-- While the table has room, a name that no line defines is one without an entry. -/
theorem name_free_iff {name : CString 63}
    (hroom : ¬ (sourceTable symbolTableInit input).Full) :
    name ∉ (sourceTable symbolTableInit input).symbols.map Symbol.name ↔
      ∀ line ∈ (readSource input).lines, line.key ≠ some name := by
  rw [notMem_names]
  constructor
  · intro hnone line hline hkey
    have hsettled : (sourceTable symbolTableInit input).Settled name := by
      cases line with
      | blank => cases hkey
      | instruction inst => cases hkey
      | label long number =>
        cases hkey
        exact settled_tableBehind _ _ hline long rfl
      | constant long value number =>
        cases hkey
        exact settled_tableBehind _ _ hline long rfl
    rcases hsettled with hnamed | hfull
    · exact hnamed hnone
    · exact hroom hfull
  · intro hfree
    exact named_defineLines hfree

/-- The literals take entries of the table's 1024. -/
theorem length_storedLiterals_le (input : List Byte) :
    (sourceTable symbolTableInit input).symbols.length + (storedLiterals input).length ≤ 1024 := by
  have hstart : (sourceTable symbolTableInit input).nextStringAddr = 0x100#32 :=
    nextStringAddr_defineLines
  have hbounded := (literalTable symbolTableInit input).bounded
  rwa [literalTable, symbols_defineLiterals, hstart, List.length_append, List.length_map]
    at hbounded

/-- Literals that are all stored have keys of their own. -/
theorem literalsEntered_of_stored (hstored : ∀ text ∈ literals (sourceInstructions input),
    ∃ a, (a, text) ∈ storedLiterals input) : LiteralsEntered input := by
  obtain ⟨hnodup, hnames⟩ := keys_placeLiterals
    ((sourceTable symbolTableInit input).symbols.map Symbol.name) 0x100#32
    (literals (sourceInstructions input))
  refine ⟨?_, ?_, ?_⟩
  · intro text htext
    obtain ⟨a, ha⟩ := hstored text htext
    exact hnames _ ha
  · intro s hs t ht hkey
    obtain ⟨a, ha⟩ := hstored s hs
    obtain ⟨b, hb⟩ := hstored t ht
    exact congrArg Prod.snd (List.inj_on_of_nodup_map hnodup ha hb hkey)
  · have hsub : (literals (sourceInstructions input)).toFinset ⊆
        ((storedLiterals input).map Prod.snd).toFinset := by
      intro text htext
      obtain ⟨a, ha⟩ := hstored text (List.mem_toFinset.mp htext)
      exact List.mem_toFinset.mpr (List.mem_map.mpr ⟨_, ha, rfl⟩)
    calc (sourceTable symbolTableInit input).symbols.length +
          (literals (sourceInstructions input)).toFinset.card
        ≤ (sourceTable symbolTableInit input).symbols.length +
          ((storedLiterals input).map Prod.snd).toFinset.card :=
          Nat.add_le_add_left (Finset.card_le_card hsub) _
      _ ≤ (sourceTable symbolTableInit input).symbols.length +
          ((storedLiterals input).map Prod.snd).length :=
          Nat.add_le_add_left (List.toFinset_card_le _) _
      _ ≤ 1024 := by
        rw [List.length_map]
        exact length_storedLiterals_le input

/-- The condition on the text says that its literals are entered and do not wrap. -/
theorem literalsApart_iff : LiteralsApart input ↔
    LiteralsEntered input ∧ OffsetsApart (literals (sourceInstructions input)) := by
  constructor
  · intro h
    refine ⟨⟨?_, h.keys, h.room⟩, ?_⟩
    · intro text htext
      exact notMem_names.mpr (named_defineLines (h.unnamed text htext))
    · rcases h.unwrapped with hspace | hoffsets
      · exact offsetsApart_of_space hspace
      · exact hoffsets
  · rintro ⟨h, hoffsets⟩
    refine ⟨?_, h.keys, h.room, .inr hoffsets⟩
    intro text htext
    have hplaced := h.placed (fun other hother => hother) htext
    have hpos := List.length_pos_of_mem hplaced
    have hroom := length_storedLiterals_le input
    have hnotFull : ¬ (sourceTable symbolTableInit input).Full := by
      unfold storedLiterals at hroom
      unfold SymbolTable.Full
      omega
    exact (name_free_iff hnotFull).mp (h.new text htext)

/-- Entered literals have addresses apart if and only if their offsets are. -/
theorem LiteralsEntered.apart_iff (h : LiteralsEntered input) (stale : ℕ → Word → ℕ → Word) :
    OffsetsApart (literals (sourceInstructions input)) ↔
      ∀ i j s t, Loads input i s → Loads input j t → s ≠ t →
        ∀ x ≤ s.chars.length, ∀ y ≤ t.chars.length,
          literalAddress stale input i s + BitVec.ofNat 32 x ≠
            literalAddress stale input j t + BitVec.ofNat 32 y := by
  constructor
  · intro hoffsets i j s t hi hj hne x hx y hy hmeet
    rw [h.at_offset stale hi, h.at_offset stale hj, place_eq_iff] at hmeet
    exact hoffsets s (mem_literals_iff.mpr ⟨i, hi⟩) t (mem_literals_iff.mpr ⟨j, hj⟩) hne x hx y hy
      hmeet
  · intro hapart s hs t ht hne x hx y hy hmeet
    obtain ⟨i, hi⟩ := mem_literals_iff.mp hs
    obtain ⟨j, hj⟩ := mem_literals_iff.mp ht
    apply hapart i j s t hi hj hne x hx y hy
    rw [h.at_offset stale hi, h.at_offset stale hj]
    exact (place_eq_iff _ _ _ _).mpr hmeet

/-- The literals of an accepted text have storage of their own if and only if their keys set them
apart from each other and from the names in the text, and there is room for all. -/
theorem storedApart_iff (stale : ℕ → Word → ℕ → Word) (input : List Byte)
    (output : CArray Word capacity)
    (h : (parserParse stale (parserInit input symbolTableInit output)).1 = true) :
    StoredApart stale input output ↔ LiteralsApart input := by
  have htable :
      (parserParse stale (parserInit input symbolTableInit output)).2.symbolTable.symbols =
        (literalTable symbolTableInit input).symbols :=
    (congrArg SymbolTable.symbols (parserParse_eq h).2.1).trans
      (textSymbols_literalTable stale input)
  rw [literalsApart_iff]
  constructor
  · intro hs
    have hentered : LiteralsEntered input := by
      apply literalsEntered_of_stored
      intro text htext
      obtain ⟨i, hi⟩ := mem_literals_iff.mp htext
      have hentry := hs.allocated i text hi
      rw [htable] at hentry
      exact ⟨_, entry_mem_iff.mp hentry⟩
    exact ⟨hentered, (hentered.apart_iff stale).mpr hs.apart⟩
  · rintro ⟨hentered, hoffsets⟩
    have hapart := (hentered.apart_iff stale).mp hoffsets
    refine ⟨?_, ?_, ?_, hapart⟩
    · intro i inst text hi hliteral
      obtain ⟨hc, hword⟩ := parserParse_word h hi
      exact ⟨hc, hword.trans (encode_literal hliteral)⟩
    · intro i text hi
      rw [htable, hentered.at_offset stale hi]
      apply entry_mem_iff.mpr
      exact hentered.placed (fun other hother => hother) (mem_literals_iff.mpr ⟨i, hi⟩)
    · intro i j s t hi hj
      constructor
      · intro heq
        by_contra hne
        exact hapart i j s t hi hj hne 0 (Nat.zero_le _) 0 (Nat.zero_le _) (by rw [heq])
      · rintro rfl
        rw [hentered.at_offset stale hi, hentered.at_offset stale hj]

theorem storedApart_iff_letters :
    (parserParse (fun _ _ _ => 0) (parserInit (bytes "MOV R0, \"a\"\nMOV R1, \"b\"")
      symbolTableInit fun _ : Fin 2 => 0)).1 = true ∧
    (StoredApart (fun _ _ _ => 0) (bytes "MOV R0, \"a\"\nMOV R1, \"b\"") (fun _ : Fin 2 => 0) ↔
      LiteralsApart (bytes "MOV R0, \"a\"\nMOV R1, \"b\"")) :=
  ⟨by decide, storedApart_iff _ _ _ (by decide)⟩

/-- Texts that differ in the 58th character only. -/
def similarText (last : Char) : CString 255 :=
  .ofBytes 255 (List.replicate 57 (ch 'A') ++ [ch last])

/-- Two such texts, loaded one after the other. -/
def similarTexts : List Byte :=
  bytes "MOV R0, \"" ++ (similarText 'B').chars ++ bytes "\"\nMOV R1, \"" ++
    (similarText 'C').chars ++ bytes "\""

/-- The second of them gets the address of the first. -/
theorem similar_texts_share : ¬ ∀ (capacity : ℕ) stale input (output : CArray Word capacity),
    (parserParse stale (parserInit input symbolTableInit output)).1 = true →
      StoredApart stale input output := by
  intro h
  have hs := h 2 (fun _ _ _ => 0) similarTexts (fun _ => 0) (by decide +kernel)
  have hfirst : Loads similarTexts 0 (similarText 'B') :=
    ⟨⟨.mov, [.register 0, .string (similarText 'B')]⟩, by decide +kernel, rfl⟩
  have hsecond : Loads similarTexts 1 (similarText 'C') :=
    ⟨⟨.mov, [.register 1, .string (similarText 'C')]⟩, by decide +kernel, rfl⟩
  have haddress : literalAddress (fun _ _ _ => 0) similarTexts 0 (similarText 'B') =
      literalAddress (fun _ _ _ => 0) similarTexts 1 (similarText 'C') := by decide +kernel
  have hsame := (hs.same 0 1 _ _ hfirst hsecond).mp haddress
  exact absurd hsame (by decide)

end stored

end Dez.Assembler
