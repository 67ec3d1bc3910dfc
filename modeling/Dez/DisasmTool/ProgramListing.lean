import Dez.DisasmTool.Window
import Dez.Machine.Boot

/-! The listing of a binary file against the program that the machine loads from it. -/
namespace Dez.DisasmTool
open Assembler Disassembler Machine

variable {malloc : ℕ → Bool} {asmFile : List Byte → Option (List Byte)} {options : DisasmOptions}
  {host : Host} {vm vm' : DezVm} {file : List Byte} {ws : List Word}

/-- The lines are the instructions of the loaded program, each at four times its index. -/
def ListsProgram (vm : DezVm) (listing : Listing) : Prop :=
  listing.lines.map (fun line => (line.instruction, line.address.toNat)) =
    (List.range vm.programSize.toNat).map fun i => (vm.memory.word i, 4 * i)

theorem readWords_words (ws : List Word) (rest : List Byte) :
    readWords ws.length (ws.flatMap wordBytes ++ rest) = ws := by
  induction ws with
  | nil => rfl
  | cons w ws ih =>
    simp only [List.length_cons, List.flatMap_cons, List.append_assoc, readWords,
      freadWord_wordBytes, ih]

theorem programFile_words (ws : List Word) :
    programFile ws [] = (BitVec.ofNat 32 ws.length :: ws).flatMap wordBytes := by
  simp [programFile]

/-- The header is read as the first instruction. -/
theorem readBinaryFile_programFile (h2 : ws.length ≤ 1024) (filename : List Byte) :
    ∃ stderr, readBinaryFile malloc filename (some (programFile ws [])) = (stderr,
      if malloc (4 * (ws.length + 1)) then some (BitVec.ofNat 32 ws.length :: ws) else none) := by
  have hlen : (programFile ws []).length = 4 * (ws.length + 1) := by
    rw [programFile_words, length_flatMap_wordBytes, List.length_cons]
  have hcount : (BitVec.ofNat 32 (4 * (ws.length + 1) / 4)).toNat = ws.length + 1 := by
    rw [BitVec.toNat_ofNat]
    omega
  have hwords :
      readWords (ws.length + 1) (programFile ws []) = BitVec.ofNat 32 ws.length :: ws := by
    have hread := readWords_words (BitVec.ofNat 32 ws.length :: ws) []
    rwa [List.append_nil, ← programFile_words] at hread
  have hpos : ¬ 4 * (ws.length + 1) = 0 := by omega
  simp only [readBinaryFile, hlen, hcount, hwords, hpos, if_false, Nat.mul_comm (ws.length + 1) 4]
  cases malloc (4 * (ws.length + 1)) with
  | false => exact ⟨_, rfl⟩
  | true => exact ⟨_, rfl⟩

/-- What the loader accepts without string data is a program file of its own words. -/
theorem file_of_load (hload : dezVmLoadProgram host vm (some file) = .ok vm')
    (hok : vm'.cpu.state ≠ .error) (hlen : file.length = 4 + 4 * vm'.programSize.toNat) :
    ∃ ws, file = programFile ws [] ∧ 1 ≤ ws.length ∧ ws.length ≤ 1024 ∧
      vm'.programSize.toNat = ws.length := by
  rcases load_cases host vm (some file) with ⟨vm'', hload', hcpu⟩ | ⟨ws, strings, hfile, h1, h2⟩
  · cases hload.symm.trans hload'
    rw [hcpu] at hok
    exact absurd rfl hok
  · cases hfile
    cases hload.symm.trans (dezVmLoadProgram_programFile host vm strings h1 h2)
    have hsize : (BitVec.ofNat 32 ws.length).toNat = ws.length := by
      rw [BitVec.toNat_ofNat]
      omega
    have hstrings : strings = [] := by
      have hfile : (programFile ws strings).length = 4 + 4 * ws.length + strings.length := by
        simp only [programFile, List.length_append, length_flatMap_wordBytes, wordBytes,
          List.length_cons, List.length_nil]
      have hsize' : (programFile ws strings).length = 4 + 4 * (BitVec.ofNat 32 ws.length).toNat :=
        hlen
      rw [hsize] at hsize'
      exact List.eq_nil_of_length_eq_zero (by omega)
    subst hstrings
    exact ⟨ws, rfl, h1, h2, hsize⟩

/-- With the default window the listing of a program file starts with its header, and every
instruction comes one line and four bytes too late. -/
theorem lines_programFile (h2 : ws.length ≤ 1024) (hstart : options.startAddr = 0#32)
    (hcount : options.count = 0#32) {listing : Listing}
    (h : disassembleBinaryFile malloc asmFile options (some (programFile ws [])) = .ok listing) :
    listing.lines.map (fun line => (line.instruction, line.address.toNat)) =
      if malloc (4 * (ws.length + 1)) then
        (List.range (ws.length + 1)).map fun i =>
          ((BitVec.ofNat 32 ws.length :: ws).getD i 0, 4 * i)
      else [] := by
  obtain ⟨stderr, hread⟩ := @readBinaryFile_programFile malloc ws h2 options.filename
  cases hm : malloc (4 * (ws.length + 1)) with
  | false =>
    rw [hm] at hread
    simp only [disassembleBinaryFile, hread] at h
    cases h
    rfl
  | true =>
    rw [hm] at hread
    have hzero : options.startAddr.toNat = 0 := by
      rw [hstart]
      rfl
    have hrequested : requested options (ws.length + 1) = ws.length + 1 := if_pos hcount
    have hend : windowEnd options (ws.length + 1) = ws.length + 1 := by
      unfold windowEnd
      omega
    obtain ⟨endIdx, count, hwindow, hendIdx, -⟩ :=
      @window_of_fits options (ws.length + 1) (by omega) (by omega) (by omega)
    have hidx : (options.startAddr / 4#32).toNat = 0 := by
      rw [startIdx_toNat, hzero]
    obtain ⟨listing', hlisting', hlines, -⟩ :=
      @disassembleBinaryFile_eq malloc asmFile _ _ _ _ _ _ _ hread hwindow
        (by rw [hidx]; exact Nat.succ_pos _) (by rw [hendIdx]; exact Nat.min_le_left _ _)
    cases h.symm.trans hlisting'
    rw [hlines, hidx, hendIdx, hend, Nat.sub_zero, ← List.range_eq_range', List.map_map]
    apply List.map_congr_left
    intro i hi
    rw [List.mem_range] at hi
    have haddress := @lineAt_address options (BitVec.ofNat 32 ws.length :: ws) i (by omega)
      (by omega)
    rw [hzero, Nat.zero_mod, Nat.add_zero, Nat.mod_eq_of_lt (by omega)] at haddress
    exact Prod.ext rfl haddress

/-- No listing of an accepted file is the listing of the program that the machine loads. -/
theorem program_not_listed (hload : dezVmLoadProgram host vm (some file) = .ok vm')
    (hok : vm'.cpu.state ≠ .error) (hlen : file.length = 4 + 4 * vm'.programSize.toNat)
    (hstart : options.startAddr = 0#32) (hcount : options.count = 0#32) :
    ¬ ∃ listing, disassembleBinaryFile malloc asmFile options (some file) = .ok listing ∧
      ListsProgram vm' listing := by
  rintro ⟨listing, hlisting, hlists⟩
  obtain ⟨ws, rfl, h1, h2, hsize⟩ := file_of_load hload hok hlen
  have hlines := congrArg List.length (lines_programFile h2 hstart hcount hlisting)
  rw [hlists, hsize, List.length_map, List.length_range] at hlines
  split at hlines
  · rw [List.length_map, List.length_range] at hlines
    omega
  · rw [List.length_nil] at hlines
    omega

/-- The file of the one instruction `HALT`. -/
theorem program_not_listed_halt :
    ¬ ∃ listing, disassembleBinaryFile (fun _ => true) (fun _ => none) (defaultOptions [])
        (some (programFile [0x00000000#32] [])) = .ok listing ∧
      ListsProgram (loadedVm false [0x00000000#32] []) listing :=
  program_not_listed (dezVmLoadProgram_programFile zeroHost dezVmInit [] (by decide) (by decide))
    (by decide) (by decide) rfl rfl

/-- It is listed as two lines. -/
theorem halt_listed_twice : ¬ ∀ (host : Host) (vm vm' : DezVm) (file : List Byte)
    (options : DisasmOptions), dezVmLoadProgram host vm (some file) = .ok vm' →
    vm'.cpu.state ≠ .error → file.length = 4 + 4 * vm'.programSize.toNat →
    options.startAddr = 0#32 → options.count = 0#32 →
    ∃ listing, disassembleBinaryFile (fun _ => true) (fun _ => none) options (some file) =
      .ok listing ∧ ListsProgram vm' listing := by
  intro h
  have hload := @dezVmLoadProgram_programFile zeroHost dezVmInit [0x00000000#32] [] (by decide)
    (by decide)
  obtain ⟨listing, hlisting, hlists⟩ := h _ _ _ _ (defaultOptions []) hload (by decide) (by decide)
    rfl rfl
  have hlines := congrArg List.length
    (@lines_programFile _ _ _ [0x00000000#32] (by decide) rfl rfl _ hlisting)
  rw [hlists] at hlines
  cases hlines

end Dez.DisasmTool
