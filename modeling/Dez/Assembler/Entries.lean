import Dez.Assembler.Symbols

/-! Which definitions of a text get an entry, told from their names. -/
namespace Dez.Assembler

/-- A name in full, with the address it stands for. -/
structure Entry where
  name : CString 255
  address : Word
  deriving DecidableEq

variable {table : SymbolTable} {entries : List Entry} {name : CString 255}

/-- There is room for one more name, and none of those entered is the same, cut to the 63
characters an entry keeps. A longer name is always new. -/
def Enters (entries : List Entry) (name : CString 255) : Prop :=
  entries.length < 1024 ∧ ∀ entry ∈ entries, (entry.name.copy 63).chars ≠ name.chars

instance (entries : List Entry) (name : CString 255) : Decidable (Enters entries name) :=
  inferInstanceAs (Decidable (_ ∧ _))

def enter (entries : List Entry) (entry : Entry) : List Entry :=
  if Enters entries entry.name then entries ++ [entry] else entries

/-- The entries so far and the number of instructions: a label stands for that number, a constant
for its value. -/
def enterLine : List Entry × Word → Line → List Entry × Word
  | (entries, address), .blank => (entries, address)
  | (entries, address), .label name _ => (enter entries ⟨name, address⟩, address)
  | (entries, address), .constant name value _ => (enter entries ⟨name, value⟩, address)
  | (entries, address), .instruction _ => (entries, address + 1#32)

/-- The definitions that get an entry, in order. -/
def entered (lines : List Line) : List Entry := (lines.foldl enterLine ([], 0#32)).1

/-- The name a line defines, in full. -/
def Line.defines : Line → Option (CString 255)
  | .label name _ => some name
  | .constant name _ _ => some name
  | _ => none

/-- The symbol table behind some lines. -/
def tableBehind (lines : List Line) : SymbolTable := (defineLines (symbolTableInit, 0#32) lines).1

/-- The table has these entries, with their names cut. -/
def SymbolTable.Has (table : SymbolTable) (entries : List Entry) : Prop :=
  table.symbols.map (fun symbol => (symbol.name, symbol.address)) =
    entries.map fun entry => (entry.name.copy 63, entry.address)

theorem SymbolTable.Has.names (h : table.Has entries) :
    table.symbols.map Symbol.name = entries.map fun entry => entry.name.copy 63 := by
  have hnames := congrArg (List.map Prod.fst) h
  rwa [List.map_map, List.map_map] at hnames

theorem SymbolTable.Has.length (h : table.Has entries) :
    table.symbols.length = entries.length := by
  simpa using congrArg List.length h

/-- The entries that a name and its namesakes share: they agree in their first 63 characters. -/
def namesakes (entries : List Entry) (name : CString 255) : List Entry :=
  entries.filter fun entry => entry.name.copy 63 = name.copy 63

theorem SymbolTable.Has.named (h : table.Has entries) (name : CString 255) :
    (table.named (name.copy 63)).map Symbol.address =
      (namesakes entries name).map Entry.address := by
  have hpairs := congrArg (List.filter fun pair => pair.1 = name.copy 63) h
  rw [List.filter_map, List.filter_map] at hpairs
  have haddresses := congrArg (List.map Prod.snd) hpairs
  rwa [List.map_map, List.map_map] at haddresses

theorem SymbolTable.Has.named_eq_nil (h : table.Has entries) (name : CString 255) :
    table.named (name.copy 63) = [] ↔ namesakes entries name = [] := by
  rw [← @List.map_eq_nil_iff _ _ Symbol.address, h.named, List.map_eq_nil_iff]

theorem SymbolTable.Has.takes_iff (h : table.Has entries) :
    table.Takes name.chars ↔ Enters entries name := by
  rw [SymbolTable.Takes, Enters, h.length]
  refine and_congr_right' ?_
  have hmem : ∀ short : CString 63, short ∈ table.symbols.map Symbol.name ↔
      short ∈ entries.map fun entry => entry.name.copy 63 := fun short => by rw [h.names]
  constructor
  · intro hnew entry hentry
    obtain ⟨symbol, hsymbol, hname⟩ :=
      List.mem_map.mp ((hmem _).mpr (List.mem_map_of_mem hentry))
    rw [← hname]
    exact hnew symbol hsymbol
  · intro hnew symbol hsymbol
    obtain ⟨entry, hentry, hname⟩ :=
      List.mem_map.mp ((hmem _).mp (List.mem_map_of_mem hsymbol))
    rw [← hname]
    exact hnew entry hentry

theorem SymbolTable.Has.add (h : table.Has entries) (name : CString 255) (type : SymbolType)
    (address value : Word) (text : Option (List Byte)) (number : ℕ) :
    (symbolTableAdd table name.chars type address value text number).2.1.Has
      (enter entries ⟨name, address⟩) := by
  unfold enter
  by_cases htakes : table.Takes name.chars
  · rw [if_pos (h.takes_iff.mp htakes), SymbolTable.Has, symbols_add_of_takes htakes,
      List.map_append, List.map_append, h]
    rfl
  · rw [if_neg (mt h.takes_iff.mpr htakes), SymbolTable.Has, symbols_add_of_not_takes htakes]
    exact h

theorem has_defineLine {start : SymbolTable × Word} {known : List Entry × Word}
    (h : start.1.Has known.1) (haddress : start.2 = known.2) (line : Line) :
    (defineLine start line).1.Has (enterLine known line).1 ∧
      (defineLine start line).2 = (enterLine known line).2 := by
  obtain ⟨table, address⟩ := start
  obtain ⟨entries, count⟩ := known
  obtain rfl : address = count := haddress
  cases line with
  | blank => exact ⟨h, rfl⟩
  | instruction inst => exact ⟨h, rfl⟩
  | label name number => exact ⟨h.add name .label address 0 none number, rfl⟩
  | constant name value number => exact ⟨h.add name .constant value value none number, rfl⟩

/-- The symbol table behind some lines has the definitions among them that are entered. -/
theorem has_entered (lines : List Line) : (tableBehind lines).Has (entered lines) := by
  have hboth : (tableBehind lines).Has (entered lines) ∧
      (defineLines (symbolTableInit, 0#32) lines).2 = (lines.foldl enterLine ([], 0#32)).2 := by
    induction lines using List.reverseRecOn with
    | nil => exact ⟨rfl, rfl⟩
    | append_singleton lines line ih =>
      rw [tableBehind, defineLines_append, entered, List.foldl_append]
      exact has_defineLine ih.1 ih.2 line
  exact hboth.1

theorem tableBehind_append (lines : List Line) (line : Line) :
    tableBehind (lines ++ [line]) =
      (defineLine (defineLines (symbolTableInit, 0#32) lines) line).1 := by
  rw [tableBehind, defineLines_append]
  rfl

theorem tableBehind_of_none {line : Line} (lines : List Line) (h : line.defines = none) :
    tableBehind (lines ++ [line]) = tableBehind lines := by
  rw [tableBehind_append]
  cases line with
  | blank => rfl
  | instruction inst => rfl
  | label other number => cases h
  | constant other value number => cases h

/-- Labels and constants are added under their names. -/
theorem tableBehind_of_some {line : Line} (lines : List Line) (h : line.defines = some name) :
    ∃ type address value text number, tableBehind (lines ++ [line]) =
      (symbolTableAdd (tableBehind lines) name.chars type address value text number).2.1 := by
  rw [tableBehind_append]
  cases line with
  | blank => cases h
  | instruction inst => cases h
  | label other number =>
    cases h
    exact ⟨_, _, _, _, _, rfl⟩
  | constant other value number =>
    cases h
    exact ⟨_, _, _, _, _, rfl⟩

section settled

variable {short : CString 63} {raw : List Byte} {type : SymbolType} {address value : Word}
  {text : Option (List Byte)} {number : ℕ}

theorem settled_add (h : table.Settled short) :
    (symbolTableAdd table raw type address value text number).2.1.Settled short := by
  unfold SymbolTable.Settled SymbolTable.Full SymbolTable.named at *
  rcases symbols_add with hs | ⟨-, hs⟩
  · rw [hs]
    exact h
  · rw [hs, List.filter_append, List.length_append]
    refine h.imp (fun hne => ?_) fun hfull => by omega
    exact List.append_ne_nil_of_left_ne_nil hne _

/-- A name is in the table once it was to be entered, or there is no room. -/
theorem settled_add_self :
    (symbolTableAdd table name.chars type address value text number).2.1.Settled
      (name.copy 63) := by
  by_cases htakes : table.Takes name.chars
  · left
    rw [SymbolTable.named, symbols_add_of_takes htakes, List.filter_append]
    apply List.append_ne_nil_of_right_ne_nil
    simp [newEntry, CString.copy]
  · have hsymbols :=
      @symbols_add_of_not_takes table name.chars type address value text number htakes
    unfold SymbolTable.Settled SymbolTable.Full SymbolTable.named
    rw [hsymbols]
    by_cases hroom : table.symbols.length < 1024
    · left
      have hfound : ∃ symbol ∈ table.symbols, symbol.name.chars = name.chars := by
        by_contra hno
        push Not at hno
        exact htakes ⟨hroom, hno⟩
      obtain ⟨symbol, hmem, hname⟩ := hfound
      have hfits : name.chars.length ≤ 63 := hname ▸ symbol.name.fits
      have hcut : symbol.name = name.copy 63 :=
        CString.ext_chars (hname.trans (name.copy_of_le hfits).symm)
      exact List.ne_nil_of_mem (mem_named.mpr ⟨hmem, hcut⟩)
    · exact .inr (Nat.not_lt.mp hroom)

/-- Every name defined so far is settled. -/
theorem settled_tableBehind (lines : List Line) :
    ∀ line ∈ lines, ∀ name, line.defines = some name →
      (tableBehind lines).Settled (name.copy 63) := by
  induction lines using List.reverseRecOn with
  | nil => exact fun line h => absurd h List.not_mem_nil
  | append_singleton lines line ih =>
    intro other hother name hname
    cases hd : line.defines with
    | none =>
      rw [tableBehind_of_none lines hd]
      rcases List.mem_append.mp hother with hold | hlast
      · exact ih other hold name hname
      · obtain rfl := List.mem_singleton.mp hlast
        exact absurd (hname.symm.trans hd) (Option.some_ne_none name)
    | some last =>
      obtain ⟨type, address, value, text, number, hadd⟩ := tableBehind_of_some lines hd
      rw [hadd]
      rcases List.mem_append.mp hother with hold | hlast
      · exact settled_add (ih other hold name hname)
      · obtain rfl := List.mem_singleton.mp hlast
        obtain rfl := Option.some.inj (hname.symm.trans hd)
        exact settled_add_self

/-- Only a name that its cell cuts can be that of several entries. -/
theorem copy_eq_of_short {d e : CString 255} (hlength : e.chars.length < 63)
    (h : d.copy 63 = e.copy 63) : d = e := by
  have hchars := congrArg CString.chars h
  rw [CString.chars_copy, CString.chars_copy, List.take_of_length_le hlength.le] at hchars
  have hfits : d.chars.length ≤ 63 := by
    by_contra hlong
    have htake := congrArg List.length hchars
    rw [List.length_take] at htake
    omega
  rw [List.take_of_length_le hfits] at hchars
  exact CString.ext_chars hchars

/-- A settled name keeps its entries, unless a longer one is entered with the same cut. -/
theorem named_lines {front lines : List Line} (h : (tableBehind front).Settled short)
    (hlong : ∀ line ∈ lines, ∀ long, line.defines = some long → long.copy 63 = short →
      long.chars.length ≤ 63) :
    (tableBehind (front ++ lines)).named short = (tableBehind front).named short ∧
      (tableBehind (front ++ lines)).Settled short := by
  induction lines using List.reverseRecOn with
  | nil =>
    rw [List.append_nil]
    exact ⟨rfl, h⟩
  | append_singleton lines line ih =>
    obtain ⟨hfirst, hlast⟩ := List.forall_mem_append.mp hlong
    obtain ⟨hnamed, hsettled⟩ := ih hfirst
    rw [← List.append_assoc]
    cases hd : line.defines with
    | none =>
      rw [tableBehind_of_none _ hd]
      exact ⟨hnamed, hsettled⟩
    | some long =>
      obtain ⟨type, address, value, text, number, hadd⟩ := tableBehind_of_some (front ++ lines) hd
      rw [hadd]
      refine ⟨?_, settled_add hsettled⟩
      by_cases hcut : long.copy 63 = short
      · have hfits := hlast line (List.mem_singleton_self line) long hd hcut
        rw [← long.copy_of_le hfits]
        exact (named_add_of_settled hsettled).trans hnamed
      · exact (named_add_of_ne hcut).trans hnamed

/-- A full table stays as it is. -/
theorem symbols_of_full {front : List Line} (h : (tableBehind front).Full) (lines : List Line) :
    (tableBehind (front ++ lines)).symbols = (tableBehind front).symbols := by
  induction lines using List.reverseRecOn with
  | nil => rw [List.append_nil]
  | append_singleton lines line ih =>
    rw [← List.append_assoc]
    cases hd : line.defines with
    | none =>
      rw [tableBehind_of_none _ hd]
      exact ih
    | some long =>
      obtain ⟨type, address, value, text, number, hadd⟩ := tableBehind_of_some (front ++ lines) hd
      have hfull : (tableBehind (front ++ lines)).Full := by
        unfold SymbolTable.Full
        rwa [ih]
      rw [hadd]
      exact (symbols_add_of_full hfull).trans ih

end settled

end Dez.Assembler
