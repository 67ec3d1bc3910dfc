import Dez.Machine.Effects

/-! One call of `dez_vm_step`, its inversion, and the runs it generates. -/
namespace Dez.Machine

variable {host : Host} {vm vm' : DezVm} {t : DezInstructionType}

/-- The instruction a word encodes, if its opcode is known. -/
def instructionOf (w : Word) : Option DezInstructionType :=
  DezInstructionType.ofOpcode ((w >>> 24).setWidth 8)

/-- The effect of an instruction word on a state. -/
def effect (host : Host) (vm : DezVm) (w : Word) : Effect :=
  match instructionOf w with
  | some t => instructionEffect host vm w t
  | none => .fail (.printf "Error: Unknown instruction 0x%02X at PC %04X\n" [w >>> 24, vm.cpu.pc])

def pcIncrement (w : Word) : Word :=
  match instructionOf w with
  | some t => (instructionTable t).pcIncrement
  | none => 0

namespace DezVm

/-- The word the next step fetches. -/
def fetched (vm : DezVm) : Word := vm.memory.word vm.cpu.pc.toNat

/-- The state with the debug line of the fetched word printed. -/
def traced (vm : DezVm) : DezVm :=
  vm.print (if vm.debugMode then
    [.printf "PC: %04X, Instruction: %08X\n" [vm.cpu.pc, vm.fetched]] else [])

/-- The program counter moves only if the instruction left it alone. -/
def advance (vm : DezVm) (oldPc increment : Word) : DezVm :=
  if vm.cpu.pc = oldPc then vm.setPc (vm.cpu.pc + increment) else vm

/-- The next step executes an instruction. -/
def Executes (vm : DezVm) : Prop := vm.cpu.state = .running ∧ vm.cpu.pc.toNat < 4096

instance (vm : DezVm) : Decidable vm.Executes := inferInstanceAs (Decidable (_ ∧ _))

/-- The next step executes this instruction. -/
def Runs (vm : DezVm) (t : DezInstructionType) : Prop :=
  vm.Executes ∧ instructionOf vm.fetched = some t

instance (vm : DezVm) (t : DezInstructionType) : Decidable (vm.Runs t) :=
  inferInstanceAs (Decidable (_ ∧ _))

end DezVm

theorem getInstructionInfo_eq (host : Host) (vm : DezVm) (w : Word) :
    (getInstructionInfo ((w >>> 24).setWidth 8)).execute host vm w =
        .ok ((effect host vm w).perform vm) ∧
      (getInstructionInfo ((w >>> 24).setWidth 8)).pcIncrement = pcIncrement w := by
  unfold getInstructionInfo effect pcIncrement instructionOf
  cases DezInstructionType.ofOpcode ((w >>> 24).setWidth 8) with
  | none => exact ⟨rfl, rfl⟩
  | some t => exact ⟨execute_eq vm w host t, rfl⟩

/-- The state an executing step reaches. -/
def next (host : Host) (vm : DezVm) : DezVm :=
  ((effect host vm vm.fetched).perform vm.traced).advance vm.cpu.pc (pcIncrement vm.fetched)

theorem dezVmStep_executes (h : vm.Executes) : dezVmStep host vm = .ok (next host vm) := by
  obtain ⟨hs, hpc⟩ := h
  have hfetch : vm.memory.memory.read vm.cpu.pc.toNat = .ok vm.fetched := by
    rw [CArray.read_of_lt _ hpc, DezVm.fetched, DezMemory.word_of_lt hpc]
  have htrace : (if vm.debugMode then
      vm.print [.printf "PC: %04X, Instruction: %08X\n" [vm.cpu.pc, vm.fetched]] else vm) =
      vm.traced := by
    unfold DezVm.traced
    split <;> simp
  have hne : ¬ vm.cpu.state ≠ .running := by simp [hs]
  obtain ⟨he, hi⟩ := getInstructionInfo_eq host vm.traced vm.fetched
  have hlt : ¬ vm.cpu.pc.toNat ≥ 4096 := by omega
  have heffect : effect host vm.traced vm.fetched = effect host vm vm.fetched := rfl
  rw [heffect] at he
  simp only [dezVmStep, hne, hlt, if_false, hfetch, ok_bind, htrace, he, hi, pure_eq_ok]
  exact (apply_ite Except.ok _ _ _).symm

section advance

variable (vm) (oldPc increment : Word)

@[simp] theorem advance_sp : (vm.advance oldPc increment).cpu.sp = vm.cpu.sp := by
  unfold DezVm.advance
  split <;> rfl

@[simp] theorem advance_state : (vm.advance oldPc increment).cpu.state = vm.cpu.state := by
  unfold DezVm.advance
  split <;> rfl

@[simp] theorem advance_reg (r : Fin 16) : (vm.advance oldPc increment).reg r = vm.reg r := by
  unfold DezVm.advance
  split <;> rfl

/-- An instruction without an increment leaves the program counter where it put it. -/
@[simp] theorem advance_pc_zero : (vm.advance oldPc 0#32).cpu.pc = vm.cpu.pc := by
  unfold DezVm.advance
  split <;> simp [DezVm.setPc]

end advance

/-- The step that runs a known instruction. -/
theorem step_runs (h : vm.Runs t) : dezVmStep host vm =
    .ok (((instructionEffect host vm vm.fetched t).perform vm.traced).advance vm.cpu.pc
      (instructionTable t).pcIncrement) := by
  rw [dezVmStep_executes h.1]
  simp only [next, effect, pcIncrement, h.2]

/-- Everything one step can do. -/
theorem step_cases (h : dezVmStep host vm = .ok vm') :
    (vm.cpu.state ≠ .running ∧ vm' = vm) ∨
    (vm.cpu.state = .running ∧ 4096 ≤ vm.cpu.pc.toNat ∧
      vm' = vm.fail (.printf "Error: Program counter out of bounds\n" [])) ∨
    (vm.Executes ∧ vm' = next host vm) := by
  by_cases hs : vm.cpu.state = .running
  · by_cases hpc : vm.cpu.pc.toNat < 4096
    · rw [dezVmStep_executes ⟨hs, hpc⟩] at h
      exact .inr (.inr ⟨⟨hs, hpc⟩, (Except.ok.inj h).symm⟩)
    · have hge : vm.cpu.pc.toNat ≥ 4096 := by omega
      simp only [dezVmStep, hs, hge, ne_eq, not_true_eq_false, if_true, if_false, pure_eq_ok] at h
      exact .inr (.inl ⟨hs, hge, (Except.ok.inj h).symm⟩)
  · simp only [dezVmStep, hs, ne_eq, not_false_eq_true, if_true, pure_eq_ok] at h
    exact .inl ⟨hs, (Except.ok.inj h).symm⟩

/-- An error is final. -/
theorem step_error (h : dezVmStep host vm = .ok vm') (hs : vm.cpu.state = .error) :
    vm'.cpu.state = .error := by
  rcases step_cases h with ⟨-, rfl⟩ | ⟨hr, -⟩ | ⟨he, -⟩
  · exact hs
  · simp [hs] at hr
  · simp [he.1] at hs

/-- A step never leaves an array: it has a result in every state. -/
theorem step_ok (host : Host) (vm : DezVm) : ∃ vm', dezVmStep host vm = .ok vm' := by
  by_cases hs : vm.cpu.state = .running
  · by_cases hpc : vm.cpu.pc.toNat < 4096
    · exact ⟨_, dezVmStep_executes ⟨hs, hpc⟩⟩
    · have hge : vm.cpu.pc.toNat ≥ 4096 := by omega
      simp only [dezVmStep, hs, hge, ne_eq, not_true_eq_false, if_true, if_false]
      exact ⟨_, rfl⟩
  · simp only [dezVmStep, hs, ne_eq, not_false_eq_true, if_true]
    exact ⟨_, rfl⟩

/-- A run of the machine; the host may settle each undefined operation anew. -/
structure Execution where
  host : ℕ → Host
  state : ℕ → DezVm

/-- Each state is the result of one `dez_vm_step` on the one before. -/
def Valid (E : Execution) : Prop :=
  ∀ n, dezVmStep (E.host n) (E.state n) = .ok (E.state (n + 1))

/-- What every step preserves holds along the whole run. -/
theorem Valid.invariant {E : Execution} (hE : Valid E) {P : DezVm → Prop}
    (hstep : ∀ host vm vm', dezVmStep host vm = .ok vm' → P vm → P vm') (h0 : P (E.state 0))
    (n : ℕ) : P (E.state n) := by
  induction n with
  | zero => exact h0
  | succ n ih => exact hstep _ _ _ (hE n) ih

/-- The state after one step. -/
def stepped (host : Host) (vm : DezVm) : DezVm :=
  match dezVmStep host vm with
  | .ok vm' => vm'
  | .error _ => vm

/-- The run of a fixed host from a state. -/
def execution (host : Host) (vm : DezVm) : Execution where
  host := fun _ => host
  state := fun n => (stepped host)^[n] vm

theorem state_execution (host : Host) (vm : DezVm) (n : ℕ) :
    (execution host vm).state n = (stepped host)^[n] vm := rfl

theorem execution_valid (host : Host) (vm : DezVm) : Valid (execution host vm) := by
  intro n
  obtain ⟨vm', h⟩ := step_ok host ((stepped host)^[n] vm)
  simp only [execution, Function.iterate_succ_apply', stepped, h]

end Dez.Machine
