import Dez.Machine.Boot

/-! Where the loaded instructions and the loaded string bytes meet in memory. -/
namespace Dez.Machine

variable {mem : DezMemory} {ws : List Word} {strings : List Byte}

/-- A word is read off the four bytes at its address, the highest first. -/
theorem word_eq_iff_byte (i : ℕ) (w : Word) :
    mem.word i = w ↔ ∀ k < 4, mem.byte (4 * i + k) = byteOf w (3 - k) := by
  have hbyte : ∀ k < 4, mem.byte (4 * i + k) = byteOf (mem.word i) (3 - k) := by
    intro k hk
    rw [DezMemory.byte, show (4 * i + k) / 4 = i by omega, show (4 * i + k) % 4 = k by omega]
  constructor
  · rintro rfl
    exact hbyte
  · intro h
    apply word_ext
    intro k hk
    have h3 := (hbyte (3 - k) (by omega)).symm.trans (h (3 - k) (by omega))
    rwa [show 3 - (3 - k) = k by omega] at h3

theorem word_instructions (h : ws.length ≤ 1024) (i : ℕ) :
    ((mem.protect false).putWords 0 ws).word i =
      if hi : i < ws.length then ws[i] else mem.word i := by
  rw [DezMemory.word_putWords _ _ _ _ (by omega)]
  by_cases hi : i < ws.length
  · rw [dif_pos (by omega), dif_pos hi]
    rfl
  · rw [dif_neg (by omega), dif_neg hi]
    rfl

/-- The string bytes win over the instructions in the window from `0x100` to `0x200`. -/
theorem byte_loadedMemory (mem : DezMemory) (strings : List Byte) (h : ws.length ≤ 1024) (b : ℕ) :
    (loadedMemory mem ws strings).byte b =
      if hb : 0x100 ≤ b ∧ b < 0x200 ∧ b - 0x100 < strings.length then strings[b - 0x100]
      else if hi : b / 4 < ws.length then byteOf ws[b / 4] (3 - b % 4)
      else mem.byte b := by
  have hlen : (strings.take 256).length = min 256 strings.length := List.length_take
  change (((mem.protect false).putWords 0 ws).putBytes 0x100 (strings.take 256)).byte b = _
  rw [DezMemory.byte_putBytes _ _ _ _ (by omega)]
  by_cases hb : 0x100 ≤ b ∧ b < 0x200 ∧ b - 0x100 < strings.length
  · rw [dif_pos (by omega), dif_pos hb, List.getElem_take]
  · rw [dif_neg (by omega), dif_neg hb, DezMemory.byte, word_instructions h]
    split <;> rfl

/-- Loading the file leaves a running machine with every instruction in place. -/
def KeepsImage (host : Host) (debugMode : Bool) (ws : List Word) (strings : List Byte) : Prop :=
  ∃ vm, dezVmLoadProgram host (freshVm debugMode) (some (programFile ws strings)) = .ok vm ∧
    vm.cpu.state = .running ∧ ∀ i (h : i < ws.length), vm.memory.word i = ws[i]

theorem keepsImage_iff_loadedVm {host : Host} {debugMode : Bool} (h1 : 1 ≤ ws.length)
    (h2 : ws.length ≤ 1024) : KeepsImage host debugMode ws strings ↔
      ∀ i (h : i < ws.length), (loadedVm debugMode ws strings).memory.word i = ws[i] := by
  have hload : dezVmLoadProgram host (freshVm debugMode) (some (programFile ws strings)) =
      .ok (loadedVm debugMode ws strings) := dezVmLoadProgram_programFile _ _ _ h1 h2
  constructor
  · rintro ⟨vm, hvm, -, h⟩
    cases hload.symm.trans hvm
    exact h
  · exact fun h => ⟨_, hload, rfl, h⟩

/-- The image survives exactly if each string byte that falls on an instruction equals the
instruction's own byte: the window of the strings begins at word 64. -/
theorem keeps_image_iff (host : Host) (debugMode : Bool) (ws : List Word) (strings : List Byte)
    (h1 : 1 ≤ ws.length) (h2 : ws.length ≤ 1024) :
    KeepsImage host debugMode ws strings ↔
      ∀ j (hj : j < strings.length) (hw : 64 + j / 4 < ws.length), j < 256 →
        strings[j] = byteOf ws[64 + j / 4] (3 - j % 4) := by
  have hbyte := fun b => byte_loadedMemory memoryInit strings h2 b
  rw [keepsImage_iff_loadedVm h1 h2]
  constructor
  · intro h j hj hw hlt
    have hk := (word_eq_iff_byte _ _).mp (h _ hw) (j % 4) (by omega)
    rw [← hk, show 4 * (64 + j / 4) + j % 4 = 0x100 + j by omega]
    refine Eq.symm ((hbyte _).trans ?_)
    rw [dif_pos (by omega)]
    simp only [show 0x100 + j - 0x100 = j by omega]
  · intro h i hi
    refine (word_eq_iff_byte _ _).mpr fun k hk => (hbyte _).trans ?_
    have hdiv : (4 * i + k) / 4 = i := by omega
    have hmod : (4 * i + k) % 4 = k := by omega
    by_cases hb : 0x100 ≤ 4 * i + k ∧ 4 * i + k < 0x200 ∧ 4 * i + k - 0x100 < strings.length
    · rw [dif_pos hb]
      have hword : 64 + (4 * i + k - 0x100) / 4 = i := by omega
      have hj := h (4 * i + k - 0x100) hb.2.2 (by omega) (by omega)
      simp only [hword] at hj
      rw [hj, show (4 * i + k - 0x100) % 4 = k by omega]
    · rw [dif_neg hb, dif_pos (by omega)]
      simp only [hdiv, hmod]

/-- Sixty-five `NOP`s, and strings that begin like the last of them. -/
theorem keeps_image_iff_nops :
    KeepsImage zeroHost false (List.replicate 65 0x12000000#32) [0x12#8, 0#8] ↔
      ∀ j (hj : j < [0x12#8, 0#8].length)
        (hw : 64 + j / 4 < (List.replicate 65 0x12000000#32).length), j < 256 →
        [0x12#8, 0#8][j] =
          byteOf (List.replicate 65 0x12000000#32)[64 + j / 4] (3 - j % 4) :=
  keeps_image_iff zeroHost false _ _ (by decide) (by decide)

/-- Sixty-five `NOP`s and one string byte: the byte replaces the opcode of the last of them. -/
theorem image_overwritten :
    ¬ ∀ host debugMode ws strings, 1 ≤ ws.length → ws.length ≤ 1024 →
      KeepsImage host debugMode ws strings := by
  intro h
  have hkept := h zeroHost false (List.replicate 65 0x12000000#32) [1#8] (by decide) (by decide)
  rw [keepsImage_iff_loadedVm (by decide) (by decide)] at hkept
  have hbyte := (word_eq_iff_byte _ _).mp (hkept 64 (by decide)) 0 (by decide)
  exact absurd hbyte (by decide)

end Dez.Machine
