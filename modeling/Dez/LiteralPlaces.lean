import Dez.StringStorage
import Dez.Acceptance

/-! Where the words of a text point for its literals, and where the file's string data lie. -/
namespace Dez.Toolchain
open Machine Assembler

variable {capacity : ℕ} {stale : ℕ → Word → ℕ → Word} {input : List Byte}
  {allocated : CArray Word capacity} {file : List Byte} {host : Host} {debugMode : Bool}
  {vm : DezVm} {names : List (CString 63)} {address : Word} {text : CString 255}
  {texts more : List (CString 255)} {place : Word × CString 255}

/-- The stored literals as they lie in the window: in whole words, cut at its end. -/
def windowStrings (input : List Byte) : List Byte :=
  ((storedLiterals input).flatMap fun place => literalPadded place.2).take 256

/-- A literal's word points to the stored literal with its key, that is with its first 57
characters. -/
def PointsTo (input : List Byte) (text : CString 255) (place : Word × CString 255) : Prop :=
  place ∈ storedLiterals input ∧ stringKey place.2 = stringKey text

/-- Each literal that a register gets lies in the window where its word points: the address counts
the literals before it, repeated ones too, without padding. -/
def LiteralsInPlace (input : List Byte) : Prop :=
  ∀ i text, LoadsLiteral input i text → ∃ place, PointsTo input text place ∧
    0x100 ≤ place.1.toNat ∧
    literalBytes text <+: (windowStrings input).drop (place.1.toNat - 0x100)

/-- Where a word points past the strings in the window the file has words that nothing is written
to: behind the instructions, in front of the strings' copies in the buffer, which start at word
`0x100`, and not behind the last of the strings. -/
def MissesUnwritten (input : List Byte) : Prop :=
  ∀ i text, LoadsLiteral input i text → ∃ place, PointsTo input text place ∧
    ∀ j < (literalBytes text).length,
      0x100 + (windowStrings input).length ≤ place.1.toNat + j →
        (sourceInstructions input).length ≤ (place.1.toNat + j) / 4 ∧
        place.1.toNat + j < 0x400 ∧
        ∃ other ∈ storedLiterals input,
          place.1.toNat + j < other.1.toNat + (literalBytes other.2).length

/-- The literals survive in every run of the machine on a binary written from the text. -/
def Survives (capacity : ℕ) (stale : ℕ → Word → ℕ → Word) (input : List Byte) : Prop :=
  ∀ (allocated : CArray Word capacity) file, WritesBinary stale input allocated file →
    ∀ host debugMode vm, dezVmLoadProgram host (freshVm debugMode) (some file) = .ok vm →
      vm.cpu.state = .running → LiteralsSurvive stale input vm.memory

/-- A binary is written from the text, and loaded. -/
def Loadable (capacity : ℕ) (stale : ℕ → Word → ℕ → Word) (input : List Byte) : Prop :=
  ∃ (allocated : CArray Word capacity) (file : List Byte) (host : Host) (debugMode : Bool)
    (vm : DezVm), WritesBinary stale input allocated file ∧
    dezVmLoadProgram host (freshVm debugMode) (some file) = .ok vm ∧ vm.cpu.state = .running

section places

/-- The names behind some literals. -/
theorem placeLiterals_append (names : List (CString 63)) (address : Word)
    (texts more : List (CString 255)) : placeLiterals names address (texts ++ more) =
      placeLiterals names address texts ++
        placeLiterals (names ++ (placeLiterals names address texts).map fun place =>
          stringKey place.2) (address + BitVec.ofNat 32 (literalSpace texts)) more := by
  induction texts generalizing names address with
  | nil =>
    simp [placeLiterals, literalSpace]
  | cons text texts ih =>
    have hnext : address + BitVec.ofNat 32 (literalSpace (text :: texts)) =
        address + BitVec.ofNat 32 (literalBytes text).length +
          BitVec.ofNat 32 (literalSpace texts) := by
      rw [literalSpace_cons, BitVec.ofNat_add, BitVec.add_assoc]
    rw [List.cons_append, placeLiterals, placeLiterals, hnext]
    split
    · rw [ih, List.cons_append, List.map_cons, List.append_assoc, List.singleton_append]
    · rw [ih]

/-- Behind a literal its key is taken, or there is no room. -/
theorem key_taken (hmem : text ∈ texts) (hroom : (names ++ (placeLiterals names address texts).map
      fun place => stringKey place.2).length < 1024) :
    stringKey text ∈ names ++ (placeLiterals names address texts).map fun place =>
      stringKey place.2 := by
  induction texts generalizing names address with
  | nil => cases hmem
  | cons first texts ih =>
    unfold placeLiterals at hroom ⊢
    dsimp only at hroom ⊢
    split at hroom
    · rw [if_pos ‹_›]
      rw [List.map_cons, List.append_cons] at hroom ⊢
      rcases List.mem_cons.mp hmem with rfl | htail
      · exact List.mem_append_left _ (List.mem_append_right _ List.mem_cons_self)
      · exact ih htail hroom
    · rename_i hnot
      rw [if_neg hnot]
      rcases List.mem_cons.mp hmem with rfl | htail
      · rw [List.length_append] at hroom
        by_contra hno
        exact hnot ⟨by omega, fun hold => hno (List.mem_append_left _ hold)⟩
      · exact ih htail hroom

theorem placeLiterals_full (h : 1024 ≤ names.length) : placeLiterals names address texts = [] := by
  induction texts generalizing address with
  | nil => rfl
  | cons text texts ih =>
    rw [placeLiterals, if_neg fun hroom => absurd hroom.1 (Nat.not_lt.mpr h)]
    exact ih

/-- A place with a literal's key is made up to the literal. -/
theorem place_of_key (hmem : text ∈ texts) (hkey : stringKey place.2 = stringKey text)
    (h : place ∈ placeLiterals names address (texts ++ more)) :
    place ∈ placeLiterals names address texts := by
  rw [placeLiterals_append, List.mem_append] at h
  rcases h with h | h
  · exact h
  · have hnew := (keys_placeLiterals _ _ _).2 place h
    rw [hkey] at hnew
    by_cases hroom : (names ++ (placeLiterals names address texts).map
        fun place => stringKey place.2).length < 1024
    · exact absurd (key_taken hmem hroom) hnew
    · rw [placeLiterals_full (Nat.not_lt.mp hroom)] at h
      cases h

/-- A place is the first address and the literals before it on. -/
theorem place_address (h : place ∈ placeLiterals names address texts) :
    ∃ k, k + (literalBytes place.2).length ≤ literalSpace texts ∧
      place.1 = address + BitVec.ofNat 32 k := by
  induction texts generalizing names address with
  | nil => cases h
  | cons text texts ih =>
    have htail : ∀ {names : List (CString 63)},
        place ∈ placeLiterals names (address + BitVec.ofNat 32 (literalBytes text).length) texts →
        ∃ k, k + (literalBytes place.2).length ≤ literalSpace (text :: texts) ∧
          place.1 = address + BitVec.ofNat 32 k := by
      intro names hplace
      obtain ⟨k, hk, haddress⟩ := ih hplace
      refine ⟨(literalBytes text).length + k, ?_, ?_⟩
      · rw [literalSpace_cons]
        omega
      · rw [haddress, BitVec.ofNat_add, BitVec.add_assoc]
    unfold placeLiterals at h
    dsimp only at h
    split at h
    · rcases List.mem_cons.mp h with rfl | hplace
      · exact ⟨0, (Nat.zero_add _).trans_le (Nat.le_add_right _ _), (BitVec.add_zero _).symm⟩
      · exact htail hplace
    · exact htail h

theorem literalSpace_le (texts : List (CString 255)) : literalSpace texts ≤ 256 * texts.length := by
  induction texts with
  | nil => exact le_rfl
  | cons text texts ih =>
    have hfits := text.fits
    rw [literalSpace_cons, List.length_cons, literalBytes, List.length_append,
      List.length_singleton]
    omega

end places

section memory

/-- The address that a literal's word takes is that of the stored literal it points to. -/
theorem literalAddress_of_pointsTo (stale : ℕ → Word → ℕ → Word) {i : ℕ}
    (hloads : LoadsLiteral input i text) (h : PointsTo input text place) :
    literalAddress stale input i text = place.1 := by
  obtain ⟨r, hi⟩ := hloads
  obtain ⟨hplace, hkey⟩ := h
  have hliteral : (⟨.mov, [.register r, .string text]⟩ : ParsedInstruction).literal = some text :=
    rfl
  have hsplit := literals_split hi hliteral
  rw [List.append_cons] at hsplit
  have hstart : (sourceTable symbolTableInit input).nextStringAddr = 0x100#32 :=
    nextStringAddr_defineLines
  rw [storedLiterals, hsplit] at hplace
  have hbefore := place_of_key (by simp) hkey hplace
  rw [← hstart] at hbefore
  have hfind := find_placed (symbols_tableBefore stale input i text) hbefore
  rw [hkey] at hfind
  exact addressOf_find hfind

theorem stringData_stored (stale : ℕ → Word → ℕ → Word) (input : List Byte) :
    stringData (textSymbols stale input) =
      (storedLiterals input).flatMap fun place => literalPadded place.2 := by
  have hpadded : ∀ place : Word × CString 255,
      (literalEntry place.1 place.2).padded = literalPadded place.2 := by
    intro place
    rw [Symbol.padded, text_literalEntry]
    rfl
  rw [stringData, textSymbols_literalTable, strings_literalTable, List.flatMap_map]
  simp only [hpadded]

/-- What the window of the loaded program holds. -/
theorem placed_window_iff (stale : ℕ → Word → ℕ → Word) (allocated : CArray Word capacity) {p : ℕ}
    (hp : 0x100 ≤ p) (hwindow : p < 0x100 + (windowStrings input).length) (c : Byte) :
    Placed stale input allocated p c ↔ (windowStrings input)[p - 0x100]? = some c := by
  have hdata := stringData_stored stale input
  unfold windowStrings at hwindow ⊢
  rw [← hdata] at hwindow ⊢
  have hlength := hwindow
  rw [List.length_take] at hlength
  unfold Placed
  rw [if_pos ⟨hp, by omega, by omega⟩, List.getElem?_take_of_lt (by omega)]

/-- In place, the literals are read from their words' addresses. -/
theorem survives_of_inPlace (hcapacity : capacity < 2 ^ 31) (h : LiteralsInPlace input) :
    Survives capacity stale input := by
  intro allocated file hwrite host debugMode vm hload hrun i text hloads w hw j c hj
  obtain ⟨place, hpoints, hlow, hprefix⟩ := h i text hloads
  obtain ⟨hlt, hc⟩ := List.getElem?_eq_some_iff.mp hj
  have hle := hprefix.length_le
  have hmax : (windowStrings input).length ≤ 256 := List.length_take_le ..
  rw [List.length_drop] at hle
  apply (read_literal_iff hcapacity hwrite hload hrun hloads hw hj).mpr
  rw [literalAddress_of_pointsTo stale hloads hpoints, Nat.mod_eq_of_lt (by omega),
    placed_window_iff stale allocated (by omega) (by omega)]
  have hbyte := hprefix.getElem hlt
  rw [List.getElem_drop] at hbyte
  rw [show place.1.toNat + j - 0x100 = place.1.toNat - 0x100 + j by omega,
    List.getElem?_eq_getElem (by omega), ← hbyte, hc]

/-- The stored literals of a program that can be loaded have their addresses behind `0x100`. -/
theorem address_of_short (hshort : (sourceInstructions input).length ≤ 1024)
    (h : place ∈ storedLiterals input) : 0x100 ≤ place.1.toNat := by
  obtain ⟨k, hk, haddress⟩ := place_address h
  have hspace := literalSpace_le (literals (sourceInstructions input))
  have hcount : (literals (sourceInstructions input)).length ≤ (sourceInstructions input).length :=
    List.length_filterMap_le ..
  rw [haddress, BitVec.toNat_add, BitVec.toNat_ofNat, BitVec.toNat_ofNat]
  omega

end memory

section unwritten

variable {p : ℕ}

/-- The copies in the buffer start at word `0x100`. -/
theorem no_copy_before (stale : ℕ → Word → ℕ → Word)
    (hshort : (sourceInstructions input).length ≤ 1024) (hp : p < 0x400) :
    CArray.lastCopied (stringCopies (textSymbols stale input)) p = none := by
  apply lastCopied_before
  intro copy hcopy
  rw [stringCopies, textSymbols_literalTable, strings_literalTable, List.map_map] at hcopy
  obtain ⟨place, hplace, rfl⟩ := List.mem_map.mp hcopy
  have hlow := address_of_short hshort hplace
  change p < 4 * place.1.toNat
  omega

/-- The words of the file reach to the end of every string. -/
theorem lt_raisedSize (stale : ℕ → Word → ℕ → Word)
    (hshort : (sourceInstructions input).length ≤ 1024) (h : place ∈ storedLiterals input)
    (hp : p < place.1.toNat + (literalBytes place.2).length) :
    p / 4 < raisedSize (sourceInstructions input).length (textSymbols stale input) := by
  have hentry : literalEntry place.1 place.2 ∈
      (literalTable symbolTableInit input).symbols.filter Symbol.isString := by
    rw [strings_literalTable]
    exact List.mem_map.mpr ⟨place, h, rfl⟩
  obtain ⟨hmem, hstring⟩ := List.mem_filter.mp hentry
  rw [← textSymbols_literalTable stale] at hmem
  have hraised : (literalEntry place.1 place.2).endWord ≤
      raisedSize (sourceInstructions input).length (textSymbols stale input) :=
    (raisedSize_le_iff.mp le_rfl).2 _ hmem hstring
  obtain ⟨k, hk, haddress⟩ := place_address h
  have hspace := literalSpace_le (literals (sourceInstructions input))
  have hcount : (literals (sourceInstructions input)).length ≤ (sourceInstructions input).length :=
    List.length_filterMap_le ..
  have hend : (literalEntry place.1 place.2).endAddr.toNat =
      place.1.toNat + (literalBytes place.2).length := by
    rw [Symbol.endAddr, text_literalEntry]
    change (place.1 + BitVec.ofNat 32 (literalBytes place.2).length).toNat = _
    rw [haddress]
    simp only [BitVec.toNat_add, BitVec.toNat_ofNat]
    omega
  unfold Symbol.endWord at hraised
  omega

/-- Where nothing is written, memory has what the buffer had. -/
theorem placed_unwritten_iff (stale : ℕ → Word → ℕ → Word) (w : Word)
    (hshort : (sourceInstructions input).length ≤ 1024)
    (hwindow : 0x100 + (windowStrings input).length ≤ p)
    (hcode : (sourceInstructions input).length ≤ p / 4) (hcopies : p < 0x400)
    (hwords : p / 4 < raisedSize (sourceInstructions input).length (textSymbols stale input))
    (hcapacity : p / 4 < capacity) (c : Byte) :
    Placed stale input (fun _ : Fin capacity => w) p c ↔ byteOf w (3 - p % 4) = c := by
  have hdata := stringData_stored stale input
  unfold windowStrings at hwindow
  rw [← hdata, List.length_take] at hwindow
  have hbyte : 4 * (p / 4) + (3 - p % 4) < 0x400 := by omega
  have hdiv : (4 * (p / 4) + (3 - p % 4)) / 4 = p / 4 := by omega
  have hmod : (4 * (p / 4) + (3 - p % 4)) % 4 = 3 - p % 4 := by omega
  have hno : ¬ p / 4 < (textWords stale input).length := by
    rw [length_sourceWords]
    omega
  unfold Placed wordByte bufferByte CArray.byte
  rw [if_neg (by omega), if_pos hwords, no_copy_before stale hshort hbyte]
  simp only [hdiv, hmod, Option.getD_none, dif_neg hno, dif_pos hcapacity]

/-- No byte stands everywhere. -/
theorem exists_word_without (c : Byte) : ∃ w : Word, ∀ k < 4, byteOf w k ≠ c := by
  by_cases hc : c = 0#8
  · refine ⟨BitVec.allOnes 32, ?_⟩
    intro k hk
    interval_cases k <;> rw [hc] <;> decide
  · refine ⟨0#32, ?_⟩
    intro k hk heq
    apply hc
    rw [← heq]
    interval_cases k <;> decide

end unwritten

section converse

/-- A text that is loaded once is loaded whatever the buffer held. -/
theorem Loadable.again (h : Loadable capacity stale input) (hcapacity : capacity < 2 ^ 31)
    (allocated : CArray Word capacity) :
    (sourceInstructions input).length ≤ 1024 ∧
    raisedSize (sourceInstructions input).length (textSymbols stale input) ≤ capacity ∧
    ∃ file vm, WritesBinary stale input allocated file ∧
      dezVmLoadProgram zeroHost (freshVm false) (some file) = .ok vm ∧
      vm.cpu.state = .running := by
  obtain ⟨before, file, host, debugMode, vm, hwrite, hload, hrun⟩ := h
  obtain ⟨loaded, hloaded, hiff⟩ := loads_iff hcapacity hwrite host debugMode
  cases hload.symm.trans hloaded
  have hrange := hiff.mp hrun
  obtain ⟨file', hwrite'⟩ := writesBinary_again hwrite stale allocated
  obtain ⟨vm', hload', hiff'⟩ := loads_iff hcapacity hwrite' zeroHost false
  obtain ⟨words, -, hsize, hle, -⟩ := writesBinary_file hwrite
  have hraised := le_raisedSize (sourceInstructions input).length (textSymbols stale input)
  exact ⟨by omega, hsize ▸ hle, file', vm', hwrite', hload', hiff'.mpr hrange⟩

theorem placed_of_survives (hcapacity : capacity < 2 ^ 31)
    (hwrite : WritesBinary stale input allocated file)
    (hload : dezVmLoadProgram host (freshVm debugMode) (some file) = .ok vm)
    (hrun : vm.cpu.state = .running) (h : LiteralsSurvive stale input vm.memory) {i : ℕ}
    (hloads : LoadsLiteral input i text) (hpoints : PointsTo input text place)
    (hlow : place.1.toNat < 4096) {j : ℕ} {c : Byte} (hj : (literalBytes text)[j]? = some c) :
    Placed stale input allocated (place.1.toNat + j) c := by
  obtain ⟨w, hw, -⟩ := literal_word stale hloads
  have hplaced := (read_literal_iff hcapacity hwrite hload hrun hloads hw hj).mp
    (h i text hloads w hw j c hj)
  rwa [literalAddress_of_pointsTo stale hloads hpoints, Nat.mod_eq_of_lt hlow] at hplaced

/-- What the buffer held can be anything, so a literal that survives whatever it was is in place. -/
theorem inPlace_of_survives (hcapacity : capacity < 2 ^ 31)
    (hloadable : Loadable capacity stale input) (hmisses : MissesUnwritten input)
    (h : Survives capacity stale input) : LiteralsInPlace input := by
  have hshort := (hloadable.again hcapacity fun _ => 0).1
  have hplaced : ∀ (allocated : CArray Word capacity) {i text place}, LoadsLiteral input i text →
      PointsTo input text place → place.1.toNat < 4096 → ∀ {j c}, (literalBytes text)[j]? = some c →
        Placed stale input allocated (place.1.toNat + j) c := by
    intro allocated i text place hloads hpoints hlow j c hj
    obtain ⟨-, -, file, vm, hwrite, hload, hrun⟩ := hloadable.again hcapacity allocated
    exact placed_of_survives hcapacity hwrite hload hrun (h _ _ hwrite _ _ _ hload hrun) hloads
      hpoints hlow hj
  intro i text hloads
  obtain ⟨place, hpoints, hmiss⟩ := hmisses i text hloads
  have hlow := address_of_short hshort hpoints.1
  refine ⟨place, hpoints, hlow, List.prefix_iff_getElem?.mpr ?_⟩
  intro j hj
  have hbyte := List.getElem?_eq_getElem hj
  have hmax : (windowStrings input).length ≤ 256 := List.length_take_le ..
  rw [List.getElem?_drop]
  by_cases hin : place.1.toNat + j < 0x100 + (windowStrings input).length
  · have hread := (placed_window_iff stale _ (by omega) hin _).mp
      (hplaced (fun _ => 0) hloads hpoints (by omega) hbyte)
    rwa [show place.1.toNat + j - 0x100 = place.1.toNat - 0x100 + j by omega] at hread
  · obtain ⟨hcode, hcopies, other, hother, hend⟩ := hmiss j hj (by omega)
    have hwords := lt_raisedSize stale hshort hother hend
    obtain ⟨w, hw⟩ := exists_word_without (literalBytes text)[j]
    obtain ⟨-, hcap, -⟩ := hloadable.again hcapacity fun _ => w
    have hread := (placed_unwritten_iff stale w hshort (by omega) hcode hcopies hwords (by omega)
      _).mp (hplaced (fun _ => w) hloads hpoints (by omega) hbyte)
    exact absurd hread (hw _ (by omega))

end converse

/-- In a short text with a key of its own for every literal no word points elsewhere. -/
theorem missesUnwritten_of_short (h : LiteralsEntered input)
    (hcode : (sourceInstructions input).length ≤ 64)
    (hspace : literalSpace (literals (sourceInstructions input)) ≤ 768) :
    MissesUnwritten input := by
  rintro i text ⟨r, hi⟩
  have hmem : text ∈ literals (sourceInstructions input) := mem_literals_iff.mpr ⟨i, _, hi, rfl⟩
  have hplace := h.placed (fun other hother => hother) hmem
  have hend := literalOffset_le hmem
  refine ⟨_, ⟨hplace, rfl⟩, ?_⟩
  intro j hj _
  have haddress : (0x100#32 + BitVec.ofNat 32
      (literalOffset (literals (sourceInstructions input)) text)).toNat =
        0x100 + literalOffset (literals (sourceInstructions input)) text := by
    rw [BitVec.toNat_add, BitVec.toNat_ofNat, BitVec.toNat_ofNat]
    omega
  dsimp only
  rw [haddress]
  refine ⟨by omega, by omega, _, hplace, ?_⟩
  dsimp only
  rw [haddress]
  omega

/-- The literals of a text survive every run on its binary if each lies in the window where its word
points; and where words point past the strings to words that nothing is written to, only then. -/
theorem literals_survive_iff (stale : ℕ → Word → ℕ → Word) (input : List Byte)
    (hcapacity : capacity < 2 ^ 31) :
    (LiteralsInPlace input → Survives capacity stale input) ∧
    (Loadable capacity stale input → MissesUnwritten input →
      (Survives capacity stale input ↔ LiteralsInPlace input)) :=
  ⟨survives_of_inPlace hcapacity, fun hloadable hmisses =>
    ⟨inPlace_of_survives hcapacity hloadable hmisses, survives_of_inPlace hcapacity⟩⟩

/-- The first literal fills a word, so the second lies where its word points. -/
theorem literals_survive_iff_words :
    Survives 1024 (fun _ _ _ => 0) (bytes "MOV R0, \"abc\"\nMOV R1, \"d\"") := by
  have hsource : sourceInstructions (bytes "MOV R0, \"abc\"\nMOV R1, \"d\"") =
      [⟨.mov, [.register 0, .string (.ofBytes 255 (bytes "abc"))]⟩,
        ⟨.mov, [.register 1, .string (.ofBytes 255 (bytes "d"))]⟩] := by decide +kernel
  have hstored : storedLiterals (bytes "MOV R0, \"abc\"\nMOV R1, \"d\"") =
      [(0x100#32, .ofBytes 255 (bytes "abc")), (0x104#32, .ofBytes 255 (bytes "d"))] := by
    decide +kernel
  refine (literals_survive_iff _ _ (by decide)).1 ?_
  rintro i text ⟨r, hi⟩
  unfold PointsTo windowStrings
  rw [hsource] at hi
  rw [hstored]
  rcases i with _ | _ | i
  · cases hi
    exact ⟨_, ⟨List.mem_cons_self, rfl⟩, by decide, by decide⟩
  · cases hi
    exact ⟨_, ⟨List.mem_of_mem_tail List.mem_cons_self, rfl⟩, by decide, by decide⟩
  · cases hi

/-- The second of two literals of one character has its address in the padding of the first. -/
theorem second_literal_lost : ¬ ∀ capacity stale input, capacity < 2 ^ 31 →
    Survives capacity stale input := by
  intro h
  have hsurvive := h 260 (fun _ _ _ => 0) (bytes "MOV R0, \"a\"\nMOV R1, \"b\"")
    (by decide) (fun _ => 0) (programFile
      (parserEncodeMov 0 0x100#32 :: parserEncodeMov 1 0x102#32 :: List.replicate 63 0)
      (bytes "a" ++ [0, 0, 0] ++ bytes "b" ++ [0, 0, 0]))
    ⟨false, [], bytes "a.dez", by decide +kernel, by decide +kernel⟩ zeroHost false _
    (dezVmLoadProgram_programFile _ _ _ (by decide) (by decide)) rfl
  have hb := hsurvive 1 (.ofBytes 255 (bytes "b")) ⟨1, by decide +kernel⟩
    (parserEncodeMov 1 0x102#32) (by decide +kernel) 0 (ch 'b') (by decide +kernel)
  rw [memoryReadByte_of_lt (by decide)] at hb
  have hbyte := congrArg Prod.fst (Except.ok.inj hb)
  exact absurd hbyte (by decide)

/-- Literals that fill whole words, up to the last, survive. -/
theorem aligned_literals_survive (hcapacity : capacity < 2 ^ 31)
    (hnew : (sourceTable symbolTableInit input).Admits (literals (sourceInstructions input)))
    (haligned : ∀ text ∈ (literals (sourceInstructions input)).dropLast,
      4 ∣ (literalBytes text).length)
    (hspace : literalSpace (literals (sourceInstructions input)) ≤ 256) :
    Survives capacity stale input := by
  intro allocated file hwrite host debugMode vm hload hrun i text hloads w hw j c hj
  apply (read_literal_iff hcapacity hwrite hload hrun hloads hw hj).mpr
  exact literals_in_place stale allocated hnew haligned hspace hloads hj

end Dez.Toolchain
