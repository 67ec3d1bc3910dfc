import Dez.Assembler.Literals
import Dez.Machine.Boot

/-! Which of the files the assembler writes the machine loads. -/
namespace Dez.Toolchain
open Machine Assembler

variable {capacity : ℕ} {stale : ℕ → Word → ℕ → Word} {input : List Byte}
  {allocated : CArray Word capacity} {file : List Byte}

/-- A file loads exactly if its header, the raised size, is in the range of the loader. -/
theorem loads_iff (hcapacity : capacity < 2 ^ 31) (hwrite : WritesBinary stale input allocated file)
    (host : Host) (debugMode : Bool) :
    ∃ vm, dezVmLoadProgram host (freshVm debugMode) (some file) = .ok vm ∧
      (vm.cpu.state = .running ↔
        1 ≤ raisedSize (sourceInstructions input).length (textSymbols stale input) ∧
        raisedSize (sourceInstructions input).length (textSymbols stale input) ≤ 1024) := by
  obtain ⟨words, rfl, hsize, hle, -⟩ := writesBinary_file hwrite
  rw [← hsize]
  rcases load_cases host (freshVm debugMode)
    (some (programFile words (stringData (textSymbols stale input)))) with
    ⟨vm, hload, hcpu⟩ | ⟨ws, rest, hfile, h1, h2⟩
  · refine ⟨vm, hload, iff_of_false (by simp [hcpu]) ?_⟩
    rintro ⟨h1, h2⟩
    rw [dezVmLoadProgram_programFile _ _ _ h1 h2] at hload
    cases hload
    cases hcpu
  · obtain ⟨rfl, -⟩ := programFile_inj (by omega) (by omega) (Option.some.inj hfile)
    exact ⟨_, dezVmLoadProgram_programFile _ _ _ h1 h2, iff_of_true rfl ⟨h1, h2⟩⟩

/-- A text without instructions has no strings. -/
theorem raisedSize_zero (stale : ℕ → Word → ℕ → Word) (h : (sourceInstructions input).length = 0) :
    raisedSize (sourceInstructions input).length (textSymbols stale input) = 0 := by
  have hnone : sourceInstructions input = [] := List.eq_nil_of_length_eq_zero h
  have hsymbols : textSymbols stale input = (sourceTable symbolTableInit input).symbols := by
    rw [textSymbols, sourceWords, hnone]
    rfl
  rw [raisedSize, hsymbols, filter_sourceTable, h]
  rfl

/-- What the assembler accepts at the size its tool gives it loads exactly if it has from 1 to 1024
instructions, as long as no string raises the size in the header above that. -/
theorem accepted_loads_iff (stale : ℕ → Word → ℕ → Word) (input : List Byte)
    (allocated : CArray Word 8192) (file : List Byte)
    (hwrite : WritesBinary stale input allocated file)
    (hends : ∀ sym ∈ textSymbols stale input, sym.isString = true → sym.endWord ≤ 1024)
    (host : Host) (debugMode : Bool) :
    ∃ vm, dezVmLoadProgram host (freshVm debugMode) (some file) = .ok vm ∧
      (vm.cpu.state = .running ↔
        1 ≤ (sourceInstructions input).length ∧ (sourceInstructions input).length ≤ 1024) := by
  obtain ⟨vm, hload, hrun⟩ := loads_iff (by decide) hwrite host debugMode
  refine ⟨vm, hload, hrun.trans ?_⟩
  rw [raisedSize_le_iff]
  have hle := le_raisedSize (sourceInstructions input).length (textSymbols stale input)
  constructor
  · rintro ⟨hpos, hsize, -⟩
    refine ⟨?_, hsize⟩
    by_contra hzero
    have hraised := raisedSize_zero stale (show (sourceInstructions input).length = 0 by omega)
    omega
  · rintro ⟨hpos, hsize⟩
    exact ⟨by omega, hsize, hends⟩

/-- One literal, far from the end of the code segment. -/
theorem accepted_loads_iff_single : ∃ vm, dezVmLoadProgram zeroHost (freshVm false)
    (some (programFile (parserEncodeMov 0 0x100#32 :: List.replicate 64 0)
      (bytes "abc" ++ [0]))) = .ok vm ∧ (vm.cpu.state = .running ↔
      1 ≤ (sourceInstructions (bytes "MOV R0, \"abc\"")).length ∧
        (sourceInstructions (bytes "MOV R0, \"abc\"")).length ≤ 1024) :=
  accepted_loads_iff (fun _ _ _ => 0) (bytes "MOV R0, \"abc\"") (fun _ => 0) _
    ⟨false, [], bytes "a.dez", by decide +kernel, by decide +kernel⟩ (by decide +kernel) zeroHost
    false

/-- An empty text is assembled to a file with an empty program, which the machine refuses. -/
theorem empty_program_refused :
    ¬ ∀ stale input (allocated : CArray Word 8192) file, WritesBinary stale input allocated file →
      ∀ host debugMode vm, dezVmLoadProgram host (freshVm debugMode) (some file) = .ok vm →
        vm.cpu.state = .running := by
  intro h
  have hwrite : WritesBinary (fun _ _ _ => 0) [] (fun _ : Fin 8192 => 0) (programFile [] []) :=
    ⟨false, [], bytes "a.dez", by decide, by decide⟩
  obtain ⟨vm, hload, hrun⟩ := loads_iff (by decide) hwrite zeroHost false
  have hloaded := h _ _ _ _ hwrite _ _ _ hload
  exact absurd (hrun.mp hloaded) (by decide +kernel)

end Dez.Toolchain
