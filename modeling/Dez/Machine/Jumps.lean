import Dez.Machine.Boot

/-! The flags, the jumps that test them, and where the jumps go. -/
namespace Dez.Machine

variable {host : Host} {vm vm' : DezVm} {t : DezInstructionType} {E : Execution}

/-- The test of a jump's handler on the flags; only jumps have one. -/
def jumps (flags : Word) : DezInstructionType → Bool
  | .jmp => true
  | .jz => (flags &&& flagZero) != 0
  | .jnz => !((flags &&& flagZero) != 0)
  | .jl => (flags &&& flagLess) != 0
  | .jg => (flags &&& flagGreater) != 0
  | .jle => (flags &&& (flagLess ||| flagEqual)) != 0
  | .jge => (flags &&& (flagGreater ||| flagEqual)) != 0
  | _ => false

def jumpInstructions : List DezInstructionType := [.jmp, .jz, .jnz, .jl, .jg, .jle, .jge]

/-- A jump's handler sets the program counter or does nothing. -/
theorem jumpEffect_eq (host : Host) (vm : DezVm) (w : Word) (ht : t ∈ jumpInstructions) :
    instructionEffect host vm w t = .jumpIf (jumps vm.cpu.flags t) (decodeImmediate w) := by
  cases t with
  | jmp | jz | jnz | jl | jg | jle | jge => rfl
  | _ => simp [jumpInstructions] at ht

/-- The two values a `CMP` word compares. -/
def compared (vm : DezVm) (w : Word) : Word × Word :=
  (vm.reg (reg1 w), if decodeReg2 w != 0#8 then vm.reg (reg2 w) else decodeImmediate w)

/-- The values the last `CMP` before step `n` compared. -/
def lastCompared (E : Execution) : ℕ → Option (Word × Word)
  | 0 => none
  | n + 1 =>
    if (E.state n).Runs .cmp then some (compared (E.state n) (E.state n).fetched)
    else lastCompared E n

/-- The flags an outcome of an unsigned comparison stands for. -/
def flagsFor : Ordering → Word
  | .eq => flagEqual ||| flagZero
  | .lt => flagLess
  | .gt => flagGreater

theorem compareFlags_eq (a b : Word) : compareFlags a b = flagsFor (compare a.toNat b.toNat) := by
  unfold compareFlags
  by_cases heq : a = b
  · simp [heq, flagsFor]
  · have hne : a.toNat ≠ b.toNat := fun h => heq (BitVec.eq_of_toNat_eq h)
    rw [if_neg heq]
    by_cases hlt : a.toNat < b.toNat
    · rw [if_pos hlt, compare_lt_iff_lt.mpr hlt]
      rfl
    · rw [if_neg hlt, compare_gt_iff_gt.mpr (show b.toNat < a.toNat by omega)]
      rfl

/-- Only `CMP` touches the flags. -/
theorem perform_flags (w : Word) (vm₀ : DezVm) (ht : t ≠ .cmp) :
    ((instructionEffect host vm w t).perform vm₀).cpu.flags = vm₀.cpu.flags := by
  cases t with
  | cmp => exact absurd rfl ht
  | jmp | jz | jnz | jl | jg | jle | jge =>
    rw [jumpEffect_eq host vm w (by simp [jumpInstructions]), Effect.jumpIf]
    split <;> rfl
  | div | push | pop | call | ret | loadIndirect | storeIndirect | loadIndexed | storeIndexed =>
    simp only [instructionEffect, Effect.unlessFull, Effect.unlessEmpty, Effect.checked]
    split <;> rfl
  | sys =>
    simp only [instructionEffect, sysEffect]
    split <;> rfl
  | _ => rfl

@[simp] theorem advance_flags (vm : DezVm) (oldPc increment : Word) :
    (vm.advance oldPc increment).cpu.flags = vm.cpu.flags := by
  unfold DezVm.advance
  split <;> rfl

/-- A step that runs no `CMP` leaves the flags alone. -/
theorem step_flags (h : dezVmStep host vm = .ok vm') (hc : ¬ vm.Runs .cmp) :
    vm'.cpu.flags = vm.cpu.flags := by
  rcases step_cases h with ⟨-, rfl⟩ | ⟨-, -, rfl⟩ | ⟨he, rfl⟩
  · rfl
  · rfl
  · rw [next, advance_flags, effect]
    cases hi : instructionOf vm.fetched with
    | none => rfl
    | some t => exact perform_flags _ _ fun ht => hc ⟨he, ht ▸ hi⟩

/-- A step that runs a `CMP` sets the flags to the outcome. -/
theorem step_cmp (h : dezVmStep host vm = .ok vm') (hc : vm.Runs .cmp) :
    vm'.cpu.flags = flagsFor (compare (compared vm vm.fetched).1.toNat
      (compared vm vm.fetched).2.toNat) := by
  rw [step_runs hc] at h
  cases h
  rw [advance_flags, ← compareFlags_eq]
  rfl

/-- The flags are those of the last comparison. -/
theorem flags_lastCompared (hE : Valid E) {n : ℕ} {a b : Word}
    (h : lastCompared E n = some (a, b)) :
    (E.state n).cpu.flags = flagsFor (compare a.toNat b.toNat) := by
  induction n with
  | zero => cases h
  | succ n ih =>
    rw [lastCompared] at h
    by_cases hc : (E.state n).Runs .cmp
    · rw [if_pos hc] at h
      rw [step_cmp (hE n) hc, Option.some.inj h]
    · rw [if_neg hc] at h
      rw [step_flags (hE n) hc, ih h]

/-- In every state after a `CMP` the flags say how the values it compared are ordered: exactly one
of `JL`, `JZ` and `JG` jumps, and the other three are their complements. -/
theorem flags_reflect_comparison (hE : Valid E) {n : ℕ} {a b : Word}
    (h : lastCompared E n = some (a, b)) :
    let flags := (E.state n).cpu.flags
    flags = flagsFor (compare a.toNat b.toNat) ∧
      ([.jl, .jz, .jg].filter (jumps flags)).length = 1 ∧
      (jumps flags .jl = true ↔ a.toNat < b.toNat) ∧
      (jumps flags .jz = true ↔ a.toNat = b.toNat) ∧
      (jumps flags .jg = true ↔ b.toNat < a.toNat) ∧
      jumps flags .jnz = !jumps flags .jz ∧
      jumps flags .jle = !jumps flags .jg ∧
      jumps flags .jge = !jumps flags .jl := by
  have hflags := flags_lastCompared hE h
  refine ⟨hflags, ?_⟩
  rw [hflags]
  rcases Nat.lt_trichotomy a.toNat b.toNat with hlt | heq | hgt
  · rw [compare_lt_iff_lt.mpr hlt, iff_true_right hlt, iff_false_right hlt.ne,
      iff_false_right (by omega)]
    decide
  · rw [heq, compare_eq_iff_eq.mpr rfl, iff_false_right (Nat.lt_irrefl _), iff_true_right rfl,
      iff_false_right (Nat.lt_irrefl _)]
    decide
  · rw [compare_gt_iff_gt.mpr hgt, iff_false_right (by omega), iff_false_right (by omega),
      iff_true_right hgt]
    decide

/-- `MOV R1, 7` and `CMP R1, 9` before a halt. -/
def compareSevenNine : DezVm := loadedVm false [0x10100007#32, 0x0E100009#32, 0x00000000#32] []

theorem flags_reflect_comparison_less :
    let flags := ((execution zeroHost compareSevenNine).state 2).cpu.flags
    flags = flagsFor (compare (7#32).toNat (9#32).toNat) ∧
      ([.jl, .jz, .jg].filter (jumps flags)).length = 1 ∧
      (jumps flags .jl = true ↔ (7#32).toNat < (9#32).toNat) ∧
      (jumps flags .jz = true ↔ (7#32).toNat = (9#32).toNat) ∧
      (jumps flags .jg = true ↔ (9#32).toNat < (7#32).toNat) ∧
      jumps flags .jnz = !jumps flags .jz ∧
      jumps flags .jle = !jumps flags .jg ∧
      jumps flags .jge = !jumps flags .jl :=
  flags_reflect_comparison (execution_valid zeroHost compareSevenNine) (by decide)

/-- A jump goes to its target if its condition holds and to the next word otherwise, and changes
nothing else. -/
structure JumpLands (vm vm' : DezVm) (t : DezInstructionType) : Prop where
  cpu : vm'.cpu = { vm.cpu with
    pc := if jumps vm.cpu.flags t then decodeImmediate vm.fetched else vm.cpu.pc + 1#32 }
  memory : vm'.memory = vm.memory

/-- Only `JMP` has no increment. -/
theorem pcIncrement_jump (ht : t ∈ jumpInstructions) :
    (instructionTable t).pcIncrement = if t = .jmp then 0#32 else 1#32 := by
  cases t with
  | jmp | jz | jnz | jl | jg | jle | jge => rfl
  | _ => simp [jumpInstructions] at ht

/-- A jump step: a conditional jump to its own address counts as not taken. -/
theorem step_jump (host : Host) (hr : vm.Runs t) (ht : t ∈ jumpInstructions) :
    ∃ vm', dezVmStep host vm = .ok vm' ∧ vm'.memory = vm.memory ∧
      vm'.cpu = { vm.cpu with
        pc := if jumps vm.cpu.flags t ∧ (t = .jmp ∨ decodeImmediate vm.fetched ≠ vm.cpu.pc)
          then decodeImmediate vm.fetched else vm.cpu.pc + 1#32 } := by
  refine ⟨_, step_runs hr, ?_⟩
  rw [jumpEffect_eq host vm _ ht, pcIncrement_jump ht, DezVm.advance_memory, Effect.perform_memory]
  refine ⟨by rw [Effect.jumpIf]; split <;> rfl, ?_⟩
  by_cases hj : jumps vm.cpu.flags t = true
  · rw [Effect.jumpIf, if_pos hj]
    by_cases hself : decodeImmediate vm.fetched = vm.cpu.pc
    · by_cases hjmp : t = .jmp
      · subst hjmp
        simp [Effect.perform, DezVm.advance, DezVm.setPc, DezVm.traced, DezVm.print, hself, hj]
      · simp [Effect.perform, DezVm.advance, DezVm.setPc, DezVm.traced, DezVm.print, hself, hjmp]
    · simp [Effect.perform, DezVm.advance, DezVm.setPc, DezVm.traced, DezVm.print, hself, hj]
  · have hne : t ≠ .jmp := by
      rintro rfl
      exact hj rfl
    rw [Effect.jumpIf, if_neg hj]
    simp [Effect.perform, DezVm.advance, DezVm.setPc, DezVm.traced, DezVm.print, hj, hne]

/-- A jump lands where it should unless it is a conditional jump, taken, to its own address: the
step then cannot tell that the program counter was set. -/
theorem jump_lands_iff (hr : vm.Runs t) (ht : t ∈ jumpInstructions) :
    ∃ vm', dezVmStep host vm = .ok vm' ∧
      (JumpLands vm vm' t ↔
        t = .jmp ∨ jumps vm.cpu.flags t = false ∨ decodeImmediate vm.fetched ≠ vm.cpu.pc) := by
  obtain ⟨vm', hstep, hmemory, hcpu⟩ := step_jump host hr ht
  refine ⟨vm', hstep, ?_⟩
  constructor
  · intro h
    by_contra hno
    push Not at hno
    obtain ⟨hne, hj, hself⟩ := hno
    have hpc := congrArg Cpu.pc (hcpu.symm.trans h.cpu)
    simp only [hne, hself, ne_eq, not_true_eq_false, or_self, and_false, if_false,
      Bool.eq_true_of_not_eq_false hj, if_true] at hpc
    exact absurd hpc (by simp)
  · intro h
    refine ⟨?_, hmemory⟩
    rw [hcpu]
    by_cases hj : jumps vm.cpu.flags t = true
    · have hto : t = .jmp ∨ decodeImmediate vm.fetched ≠ vm.cpu.pc := by
        rcases h with h | h | h
        · exact .inl h
        · simp [hj] at h
        · exact .inr h
      rw [if_pos hj, if_pos ⟨hj, hto⟩]
    · rw [if_neg hj, if_neg fun h => hj h.1]

/-- A state before a jump: `CMP R0, 0` and then `JZ` to the `JZ` itself. -/
def jumpToSelf : DezVm := loadedVm false [0x0E000000#32, 0x09000001#32, 0x00000000#32] []

theorem jump_lands_iff_jumpToSelf :
    ∃ vm', dezVmStep zeroHost ((execution zeroHost jumpToSelf).state 1) = .ok vm' ∧
      (JumpLands ((execution zeroHost jumpToSelf).state 1) vm' .jz ↔
        DezInstructionType.jz = .jmp ∨
        jumps ((execution zeroHost jumpToSelf).state 1).cpu.flags .jz = false ∨
        decodeImmediate ((execution zeroHost jumpToSelf).state 1).fetched ≠
          ((execution zeroHost jumpToSelf).state 1).cpu.pc) :=
  jump_lands_iff (by decide) (by decide)

/-- The `JZ` is taken, and the machine goes on behind it. -/
theorem jump_to_self_skipped :
    ¬ ∀ host vm vm' t, vm.Runs t → t ∈ jumpInstructions → dezVmStep host vm = .ok vm' →
      JumpLands vm vm' t := by
  intro h
  have hlands := h zeroHost _ _ .jz (by decide) (by decide)
    (execution_valid zeroHost jumpToSelf 1)
  have hpc := congrArg Cpu.pc hlands.cpu
  exact absurd hpc (by decide)

end Dez.Machine
