import Dez.Machine.Jumps
import Dez.Machine.Stack

/-! What one step leaves alone, component by component. -/
namespace Dez.Machine

variable {host : Host} {vm vm' : DezVm} {t : DezInstructionType} {w : Word}

/-- The instructions that put a value into a register. -/
def registerWriters : List DezInstructionType :=
  [.mov, .load, .loadIndirect, .loadIndexed, .add, .sub, .mul, .div, .and, .or, .xor, .not, .shl,
    .shr, .inc, .dec, .pop]

/-- The effective address of an instruction that writes to memory. -/
def writeAddress (vm : DezVm) (w : Word) : DezInstructionType → Option Word
  | .store => some (decodeImmediate w)
  | .storeIndirect => some (vm.reg (reg2 w))
  | .storeIndexed => some (vm.reg (reg2 w) + vm.reg (reg3 w))
  | .push | .call => some vm.cpu.sp
  | _ => none

/-- What a step may change: of the registers the one its instruction names, of the memory the word
at its effective address. -/
structure Framed (vm vm' : DezVm) : Prop where
  registers : (∀ r, vm'.reg r = vm.reg r) ∨
    ∃ t ∈ registerWriters, vm.Runs t ∧ ∀ r, r ≠ reg1 vm.fetched → vm'.reg r = vm.reg r
  flags : vm'.cpu.flags = vm.cpu.flags ∨ vm.Runs .cmp
  stackPointer : vm'.cpu.sp = vm.cpu.sp ∨
    (vm.Runs .push ∨ vm.Runs .call) ∧ vm'.cpu.sp.toNat + 1 = vm.cpu.sp.toNat ∨
    (vm.Runs .pop ∨ vm.Runs .ret) ∧ vm'.cpu.sp.toNat = vm.cpu.sp.toNat + 1
  words : (∀ a, vm'.memory.word a = vm.memory.word a) ∨
    ∃ t x, vm.Runs t ∧ writeAddress vm vm.fetched t = some x ∧
      ∀ a, a ≠ x.toNat → vm'.memory.word a = vm.memory.word a
  layout : vm.memory.SameLayout vm'.memory
  programSize : vm'.programSize = vm.programSize
  debugMode : vm'.debugMode = vm.debugMode
  stopped : vm.cpu.state ≠ .running → vm' = vm

theorem reg_setReg (vm : DezVm) (i r : Fin 16) (v : Word) :
    (vm.setReg i v).reg r = if r = i then v else vm.reg r := CArray.set_apply ..

/-- An instruction puts its value into the register it names first. -/
theorem perform_reg (w : Word) (vm₀ : DezVm) {r : Fin 16}
    (h : t ∉ registerWriters ∨ r ≠ reg1 w) :
    ((instructionEffect host vm w t).perform vm₀).reg r = vm₀.reg r := by
  have hset : ∀ (vm : DezVm) v, r ≠ reg1 w → (vm.setReg (reg1 w) v).reg r = vm.reg r := by
    intro vm v hr
    rw [reg_setReg, if_neg hr]
  cases t with
  | jmp | jz | jnz | jl | jg | jle | jge =>
    rw [jumpEffect_eq host vm w (by simp [jumpInstructions]), Effect.jumpIf]
    split <;> rfl
  | push | call | ret | storeIndirect | storeIndexed =>
    simp only [instructionEffect, Effect.unlessFull, Effect.unlessEmpty, Effect.checked]
    split <;> rfl
  | sys =>
    simp only [instructionEffect, sysEffect]
    split <;> rfl
  | store | cmp | halt | nop => rfl
  | div | pop | loadIndirect | loadIndexed =>
    have hr := h.resolve_left (fun hno => hno (by simp [registerWriters]))
    simp only [instructionEffect, Effect.unlessEmpty, Effect.checked]
    split <;> first | exact hset _ _ hr | rfl
  | _ => exact hset _ _ (h.resolve_left (fun hno => hno (by simp [registerWriters])))

theorem perform_programSize (e : Effect) (vm : DezVm) :
    (e.perform vm).programSize = vm.programSize := by
  cases e <;> rfl

theorem perform_debugMode (e : Effect) (vm : DezVm) :
    (e.perform vm).debugMode = vm.debugMode := by
  cases e <;> rfl

theorem advance_programSize (vm : DezVm) (oldPc increment : Word) :
    (vm.advance oldPc increment).programSize = vm.programSize := by
  unfold DezVm.advance
  split <;> rfl

theorem advance_debugMode (vm : DezVm) (oldPc increment : Word) :
    (vm.advance oldPc increment).debugMode = vm.debugMode := by
  unfold DezVm.advance
  split <;> rfl

theorem step_registers (h : dezVmStep host vm = .ok vm') : (∀ r, vm'.reg r = vm.reg r) ∨
    ∃ t ∈ registerWriters, vm.Runs t ∧ ∀ r, r ≠ reg1 vm.fetched → vm'.reg r = vm.reg r := by
  rcases step_cases h with ⟨-, rfl⟩ | ⟨-, -, rfl⟩ | ⟨he, rfl⟩
  · exact .inl fun r => rfl
  · exact .inl fun r => rfl
  · simp only [next, advance_reg, effect]
    cases hi : instructionOf vm.fetched with
    | none => exact .inl fun r => rfl
    | some t =>
      by_cases ht : t ∈ registerWriters
      · exact .inr ⟨t, ht, ⟨he, hi⟩, fun r hr => perform_reg _ _ (.inr hr)⟩
      · exact .inl fun r => perform_reg _ _ (.inl ht)

theorem stackOp_push {v : Word} (h : stackOp vm = some (.push v)) :
    vm.Runs .push ∨ vm.Runs .call := by
  unfold stackOp at h
  split at h
  · rename_i he
    split at h
    · exact .inl ⟨he, ‹_›⟩
    · exact .inr ⟨he, ‹_›⟩
    · cases h
    · cases h
    · cases h
  · cases h

theorem stackOp_pop (h : stackOp vm = some .pop) : vm.Runs .pop ∨ vm.Runs .ret := by
  unfold stackOp at h
  split at h
  · rename_i he
    split at h
    · cases h
    · cases h
    · exact .inl ⟨he, ‹_›⟩
    · exact .inr ⟨he, ‹_›⟩
    · cases h
  · cases h

theorem step_stackPointer (h : dezVmStep host vm = .ok vm') : vm'.cpu.sp = vm.cpu.sp ∨
    (vm.Runs .push ∨ vm.Runs .call) ∧ vm'.cpu.sp.toNat + 1 = vm.cpu.sp.toNat ∨
    (vm.Runs .pop ∨ vm.Runs .ret) ∧ vm'.cpu.sp.toNat = vm.cpu.sp.toNat + 1 := by
  cases step_stack h with
  | push v op low sp memory state =>
    refine .inr (.inl ⟨stackOp_push op, ?_⟩)
    rw [sp]
    bv_omega
  | pop op high sp memory state =>
    refine .inr (.inr ⟨stackOp_pop op, ?_⟩)
    rw [sp]
    bv_omega
  | overflow v op low sp memory state => exact .inl sp
  | underflow op high sp memory state => exact .inl sp
  | other op sp => exact .inl sp

/-- The cell a step writes is at the effective address of its instruction. -/
theorem written_address {a : ℕ} {v : Word} (h : vm.written host = some (a, v)) :
    ∃ t x, vm.Runs t ∧ writeAddress vm vm.fetched t = some x ∧ a = x.toNat := by
  rcases written_cases h with ⟨hr, ha, -⟩ | ⟨x, t, hr, -, hst, ha, -⟩ | ⟨hr | hr, ha, -⟩
  · exact ⟨_, _, hr, rfl, ha⟩
  · refine ⟨t, x, hr, ?_, ha⟩
    cases t <;> cases hst <;> rfl
  · exact ⟨_, _, hr, rfl, ha⟩
  · exact ⟨_, _, hr, rfl, ha⟩

theorem step_words (h : dezVmStep host vm = .ok vm') :
    (∀ a, vm'.memory.word a = vm.memory.word a) ∨
    ∃ t x, vm.Runs t ∧ writeAddress vm vm.fetched t = some x ∧
      ∀ a, a ≠ x.toNat → vm'.memory.word a = vm.memory.word a := by
  cases hw : vm.written host with
  | none => exact .inl fun a => step_word h (by simp [hw])
  | some p =>
    obtain ⟨a, v⟩ := p
    obtain ⟨t, x, hr, hx, rfl⟩ := written_address hw
    refine .inr ⟨t, x, hr, hx, fun b hb => step_word h ?_⟩
    intro u hu
    rw [hw] at hu
    cases hu
    exact hb rfl

theorem step_layout (h : dezVmStep host vm = .ok vm') : vm.memory.SameLayout vm'.memory := by
  rw [step_memory h]
  cases vm.written host with
  | none => rfl
  | some p => exact DezMemory.sameLayout_put ..

/-- Every step of every state has a result, and touches only what its instruction names. -/
theorem step_framed (host : Host) (vm : DezVm) :
    ∃ vm', dezVmStep host vm = .ok vm' ∧ Framed vm vm' := by
  obtain ⟨vm', h⟩ := step_ok host vm
  refine ⟨vm', h, step_registers h, ?_, step_stackPointer h, step_words h, step_layout h, ?_, ?_,
    ?_⟩
  · by_cases hc : vm.Runs .cmp
    · exact .inr hc
    · exact .inl (step_flags h hc)
  · rcases step_cases h with ⟨-, rfl⟩ | ⟨-, -, rfl⟩ | ⟨-, rfl⟩
    · rfl
    · rfl
    · rw [next, advance_programSize, perform_programSize]
      rfl
  · rcases step_cases h with ⟨-, rfl⟩ | ⟨-, -, rfl⟩ | ⟨-, rfl⟩
    · rfl
    · rfl
    · rw [next, advance_debugMode, perform_debugMode]
      rfl
  · intro hs
    rcases step_cases h with ⟨-, rfl⟩ | ⟨hr, -⟩ | ⟨he, -⟩
    · rfl
    · exact absurd hr hs
    · exact absurd he.1 hs

end Dez.Machine
