import Dez.Machine.Jumps
import Dez.Machine.Main

/-! Programs whose jumps all go forward stop, and within as many steps as they have instructions. -/
namespace Dez.Machine

variable {host : Host} {hosts : ℕ → Host} {vm vm' : DezVm} {t : DezInstructionType} {w : Word}
  {n k : ℕ} {E : Execution} {ws : List Word} {strings filename : List Byte}
  {contents : List Byte → Option (List Byte)}

/-- An instruction at `i` in a program of `n` that stops the machine or leads to a later one, and
stores to none of them. -/
structure GoesForward (n i : ℕ) (w : Word) (t : DezInstructionType) : Prop where
  plain : t ≠ .call ∧ t ≠ .ret
  jump : t ∈ jumpInstructions → i < (decodeImmediate w).toNat ∧ (decodeImmediate w).toNat < n
  next : t ≠ .jmp → t ≠ .halt → i + 1 < n
  store : t = .store → n ≤ (decodeImmediate w).toNat

/-- The program in the first `n` words goes forward. A word without an instruction stops it. -/
def Forward (n : ℕ) (mem : DezMemory) : Prop :=
  ∀ i < n, ∀ t, instructionOf (mem.word i) = some t → GoesForward n i (mem.word i) t

/-- The machine has stopped, or has come to instruction `k` of a program that goes forward. -/
structure Ahead (n k : ℕ) (vm : DezVm) : Prop where
  small : n ≤ 0x400
  guarded : Protected vm.memory
  forward : Forward n vm.memory
  pc : vm.cpu.state = .running → k ≤ vm.cpu.pc.toNat ∧ vm.cpu.pc.toNat < n

/-- Only the jumps, `CALL` and `RET` set the program counter. -/
theorem perform_pc (w : Word) (vm₀ : DezVm) (hj : t ∉ jumpInstructions) (hc : t ≠ .call)
    (hr : t ≠ .ret) : ((instructionEffect host vm w t).perform vm₀).cpu.pc = vm₀.cpu.pc := by
  cases t with
  | jmp | jz | jnz | jl | jg | jle | jge => simp [jumpInstructions] at hj
  | call => exact absurd rfl hc
  | ret => exact absurd rfl hr
  | push | pop | storeIndirect | storeIndexed | loadIndirect | loadIndexed =>
    simp only [instructionEffect, Effect.unlessFull, Effect.unlessEmpty, Effect.checked]
    split <;> rfl
  | sys =>
    simp only [instructionEffect, sysEffect]
    split <;> rfl
  | div =>
    simp only [instructionEffect]
    split <;> rfl
  | _ => rfl

/-- No instruction but a jump, `CALL`, `RET` and `HALT` leads anywhere but to the next word. -/
theorem step_goOn (h : dezVmStep host vm = .ok vm') (hr : vm.Runs t) (hj : t ∉ jumpInstructions)
    (hc : t ≠ .call) (hret : t ≠ .ret) (hhalt : t ≠ .halt) :
    vm'.cpu.pc = vm.cpu.pc + 1#32 := by
  have hincrement : (instructionTable t).pcIncrement = 1#32 := by
    cases t with
    | jmp | jz | jnz | jl | jg | jle | jge => simp [jumpInstructions] at hj
    | call => exact absurd rfl hc
    | ret => exact absurd rfl hret
    | halt => exact absurd rfl hhalt
    | _ => rfl
  have hpc : ((instructionEffect host vm vm.fetched t).perform vm.traced).cpu.pc = vm.cpu.pc :=
    perform_pc _ _ hj hc hret
  rw [step_runs hr] at h
  cases h
  rw [DezVm.advance, if_pos hpc, hincrement]
  exact congrArg (· + 1#32) hpc

theorem step_halt (h : dezVmStep host vm = .ok vm') (hr : vm.Runs .halt) :
    vm'.cpu.state = .halted := by
  rw [step_runs hr] at h
  cases h
  rw [advance_state]
  rfl

theorem step_unknown (h : dezVmStep host vm = .ok vm') (he : vm.Executes)
    (hi : instructionOf vm.fetched = none) : vm'.cpu.state = .error := by
  rw [dezVmStep_executes he] at h
  cases h
  simp only [next, effect, hi, advance_state]
  rfl

/-- A program that goes forward is not changed by a step. -/
theorem Ahead.forward_kept (ha : Ahead n k vm) (h : dezVmStep host vm = .ok vm')
    (hlt : vm.cpu.pc.toNat < n) : ∀ i < n, vm'.memory.word i = vm.memory.word i := by
  intro i hi
  have hsmall := ha.small
  apply step_word h
  intro v hw
  rcases written_cases hw with ⟨hr, rfl, -⟩ | ⟨x, t, -, -, -, rfl, hacc⟩ | ⟨-, rfl, hge, -⟩
  · have hstore := (ha.forward _ hlt .store hr.2).store rfl
    exact absurd hi (Nat.not_lt.mpr hstore)
  · have hx := (ha.guarded.accepts_iff x).mp hacc
    omega
  · omega

/-- A step of a program that goes forward stops the machine or comes to a later instruction. -/
theorem Ahead.step (ha : Ahead n k vm) (h : dezVmStep host vm = .ok vm') :
    Ahead n (k + 1) vm' := by
  have hsmall := ha.small
  by_cases hrun : vm.cpu.state = .running
  · obtain ⟨hk, hlt⟩ := ha.pc hrun
    have he : vm.Executes := ⟨hrun, by omega⟩
    have hkept := ha.forward_kept h hlt
    refine ⟨hsmall, step_protected h ha.guarded, fun i hi t => ?_, fun hrun' => ?_⟩
    · rw [hkept i hi]
      exact ha.forward i hi t
    cases hi : instructionOf vm.fetched with
    | none =>
      rw [step_unknown h he hi] at hrun'
      cases hrun'
    | some t =>
      have hr : vm.Runs t := ⟨he, hi⟩
      have hto := ha.forward _ hlt t hi
      have hnext : t ≠ .jmp → t ≠ .halt → (vm.cpu.pc + 1#32).toNat = vm.cpu.pc.toNat + 1 ∧
          vm.cpu.pc.toNat + 1 < n := by
        intro hjmp hhalt
        have hin := hto.next hjmp hhalt
        exact ⟨by bv_omega, hin⟩
      by_cases hhalt : t = .halt
      · subst hhalt
        rw [step_halt h hr] at hrun'
        cases hrun'
      by_cases hj : t ∈ jumpInstructions
      · obtain ⟨vm'', hstep, -, hcpu⟩ := step_jump host hr hj
        obtain rfl : vm' = vm'' := Except.ok.inj (h.symm.trans hstep)
        obtain ⟨hup, hin⟩ := hto.jump hj
        rw [hcpu]
        dsimp only
        change _ < (decodeImmediate vm.fetched).toNat at hup
        change (decodeImmediate vm.fetched).toNat < n at hin
        split
        · omega
        · rename_i hnot
          have hjmp : t ≠ .jmp := by
            rintro rfl
            exact hnot ⟨rfl, .inl rfl⟩
          obtain ⟨hpc, hlast⟩ := hnext hjmp hhalt
          omega
      · have hjmp : t ≠ .jmp := by
          rintro rfl
          exact hj (by decide)
        obtain ⟨hpc, hlast⟩ := hnext hjmp hhalt
        rw [step_goOn h hr hj hto.plain.1 hto.plain.2 hhalt]
        omega
  · rcases step_cases h with ⟨-, rfl⟩ | ⟨hr, -⟩ | ⟨he, -⟩
    · exact ⟨hsmall, ha.guarded, ha.forward, fun hr => absurd hr hrun⟩
    · exact absurd hr hrun
    · exact absurd he.1 hrun

theorem ahead_run (hE : Valid E) (h0 : Ahead n 0 (E.state 0)) (k : ℕ) : Ahead n k (E.state k) := by
  induction k with
  | zero => exact h0
  | succ k ih => exact ih.step (hE k)

/-- After as many steps as there are instructions no instruction is left. -/
theorem stops_of_ahead (hE : Valid E) (h0 : Ahead n 0 (E.state 0)) :
    (E.state n).cpu.state ≠ .running := by
  intro hrun
  obtain ⟨hn, hlt⟩ := (ahead_run hE h0 n).pc hrun
  omega

/-- A program file whose jumps all go forward stops within as many steps as it has instructions,
whatever the data, the flags and the host; so `main` never cuts it off. -/
theorem forward_program_stops (host : Host) (hosts : ℕ → Host)
    (hfile : contents filename = some (programFile ws strings)) (h1 : 1 ≤ ws.length)
    (h2 : ws.length ≤ 1024) (h : Forward ws.length (loadedMemory memoryInit ws strings)) :
    ∃ final, (runFrom hosts (loadedVm false ws strings)).state ws.length = final ∧
      final.cpu.state ≠ .running ∧
      main host hosts contents [filename] = .ok (0, final.stdout) := by
  have hE := runFrom_valid hosts (loadedVm false ws strings)
  have h0 : Ahead ws.length 0 ((runFrom hosts (loadedVm false ws strings)).state 0) :=
    ⟨h2, protected_loadedMemory ws strings, h, fun _ => ⟨Nat.zero_le _, h1⟩⟩
  have hstop := stops_of_ahead hE h0
  refine ⟨_, rfl, hstop, ?_⟩
  have hlimit : ws.length ≤ maxSteps (loadedVm false ws strings) := by
    have hmax : maxSteps (loadedVm false ws strings) = 100000 := rfl
    omega
  rw [main_loaded host hfile h1 h2, dezVmRun_stopped hlimit hstop]
  rfl

/-- `JMP 2` over a `NOP`, and `HALT`. -/
def jumpOver : List Word := [0x08000002#32, 0x12000000#32, 0#32]

theorem forward_program_stops_jumpOver : ∃ final,
    (runFrom (fun _ => zeroHost) (loadedVm false jumpOver [])).state 3 = final ∧
      final.cpu.state ≠ .running ∧
      main zeroHost (fun _ => zeroHost) (fun _ => some (programFile jumpOver [])) [[]] =
        .ok (0, final.stdout) := by
  have hjmp : instructionOf ((loadedMemory memoryInit jumpOver []).word 0) = some .jmp := by decide
  have hnop : instructionOf ((loadedMemory memoryInit jumpOver []).word 1) = some .nop := by decide
  have hhalt : instructionOf ((loadedMemory memoryInit jumpOver []).word 2) = some .halt := by
    decide
  have hforward : Forward jumpOver.length (loadedMemory memoryInit jumpOver []) := by
    intro i hi t ht
    match i, hi with
    | 0, _ =>
      cases hjmp.symm.trans ht
      exact ⟨by decide, by decide, by decide, nofun⟩
    | 1, _ =>
      cases hnop.symm.trans ht
      exact ⟨by decide, by decide, by decide, nofun⟩
    | 2, _ =>
      cases hhalt.symm.trans ht
      exact ⟨by decide, by decide, by decide, nofun⟩
  exact forward_program_stops zeroHost (fun _ => zeroHost) rfl (by decide) (by decide) hforward

end Dez.Machine
