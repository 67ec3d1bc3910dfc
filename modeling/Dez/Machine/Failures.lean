import Dez.Machine.Boot

/-! What a step that ends in an error leaves of the machine. -/
namespace Dez.Machine

variable {host : Host} {vm vm' : DezVm} {t : DezInstructionType} {e : Effect} {out : Output}

/-- Nothing but the state and the output changed. -/
def Untouched (vm vm' : DezVm) : Prop :=
  { vm with cpu := { vm.cpu with state := vm'.cpu.state }, stdout := vm'.stdout } = vm'

/-- Only a failing effect sets the error state. -/
theorem perform_error (hs : vm.cpu.state ≠ .error) (he : (e.perform vm).cpu.state = .error) :
    ∃ out, e = .fail out := by
  cases e with
  | fail out => exact ⟨out, rfl⟩
  | halt out => cases he
  | _ => exact absurd he hs

/-- The instructions whose handler can fail. -/
def failing : List DezInstructionType :=
  [.div, .push, .pop, .call, .ret, .loadIndirect, .storeIndirect, .loadIndexed, .storeIndexed]

/-- No other instruction fails: its operands are in range by their widths. -/
theorem instruction_fails {w : Word} (h : instructionEffect host vm w t = .fail out) :
    t ∈ failing := by
  cases t with
  | div | push | pop | call | ret | loadIndirect | storeIndirect | loadIndexed | storeIndexed =>
    simp [failing]
  | jz | jnz | jl | jg | jle | jge =>
    simp only [instructionEffect, Effect.jumpIf] at h
    split at h <;> cases h
  | sys =>
    simp only [instructionEffect, sysEffect] at h
    split at h <;> cases h
  | _ => cases h

/-- `CALL` and `RET` are the failing instructions that move the program counter themselves. -/
theorem pcIncrement_failing (ht : t ∈ failing) :
    (instructionTable t).pcIncrement = if t = .call ∨ t = .ret then 0#32 else 1#32 := by
  cases t with
  | div | push | pop | call | ret | loadIndirect | storeIndirect | loadIndexed | storeIndexed =>
    rfl
  | _ => simp [failing] at ht

theorem advance_fail (vm : DezVm) (out : Output) (increment : Word) :
    (vm.fail out).advance vm.cpu.pc increment = (vm.fail out).setPc (vm.cpu.pc + increment) :=
  if_pos rfl

/-- Everything a step that fails does: it reports the error, and the step that ran the instruction
moves the program counter on. -/
theorem step_fails (h : dezVmStep host vm = .ok vm') (hs : vm.cpu.state = .running)
    (he : vm'.cpu.state = .error) :
    (4096 ≤ vm.cpu.pc.toNat ∧ Untouched vm vm') ∨
    (vm.Executes ∧ ∃ out, effect host vm vm.fetched = .fail out ∧
      Untouched (vm.setPc (vm.cpu.pc + pcIncrement vm.fetched)) vm') := by
  rcases step_cases h with ⟨hne, -⟩ | ⟨-, hpc, rfl⟩ | ⟨hx, rfl⟩
  · exact absurd hs hne
  · exact .inl ⟨hpc, rfl⟩
  · rw [next, advance_state] at he
    have hrun : vm.traced.cpu.state ≠ .error := by
      intro herr
      cases hs.symm.trans herr
    obtain ⟨out, hout⟩ := perform_error hrun he
    refine .inr ⟨hx, out, hout, ?_⟩
    have hpc : vm.traced.cpu.pc = vm.cpu.pc := rfl
    have hfail := advance_fail vm.traced out (pcIncrement vm.fetched)
    rw [hpc] at hfail
    rw [next, hout, Effect.perform, hfail]
    rfl

/-- The program counter of an untouched machine. -/
theorem Untouched.pc (h : Untouched vm vm') : vm'.cpu.pc = vm.cpu.pc := by
  unfold Untouched at h
  rw [← h]

theorem untouched_iff {increment : Word} (h : Untouched (vm.setPc (vm.cpu.pc + increment)) vm') :
    Untouched vm vm' ↔ increment = 0#32 := by
  constructor
  · intro hu
    have hpc : vm.cpu.pc + increment = vm.cpu.pc := h.pc.symm.trans hu.pc
    exact BitVec.add_right_eq_self.mp hpc
  · rintro rfl
    rwa [BitVec.add_zero] at h

/-- The instructions that leave the program counter at the fault, and no instruction at all. -/
theorem pcIncrement_eq_zero_iff (hx : vm.Executes) (h : effect host vm vm.fetched = .fail out) :
    pcIncrement vm.fetched = 0#32 ↔ ∀ t, vm.Runs t → t = .call ∨ t = .ret := by
  cases hi : instructionOf vm.fetched with
  | none =>
    have hzero : pcIncrement vm.fetched = 0#32 := by
      unfold pcIncrement
      rw [hi]
      rfl
    refine iff_of_true hzero ?_
    intro t hr
    cases hi.symm.trans hr.2
  | some t =>
    have hfails : t ∈ failing := by
      unfold effect at h
      rw [hi] at h
      exact instruction_fails h
    have hinc : pcIncrement vm.fetched = if t = .call ∨ t = .ret then 0#32 else 1#32 := by
      rw [← pcIncrement_failing hfails]
      unfold pcIncrement
      rw [hi]
    rw [hinc]
    constructor
    · intro h0 t' hr
      obtain rfl : t = t' := Option.some.inj (hi.symm.trans hr.2)
      by_contra hno
      rw [if_neg hno] at h0
      exact absurd h0 (by decide)
    · intro hall
      exact if_pos (hall t ⟨hx, hi⟩)

/-- A step that ends in an error keeps registers, memory, stack pointer, flags and program size. It
keeps the program counter too unless it ran an instruction other than `CALL` and `RET`: the
increment behind the handler does not look at the state. -/
theorem failing_step_atomic_iff (h : dezVmStep host vm = .ok vm') (hs : vm.cpu.state = .running)
    (he : vm'.cpu.state = .error) :
    Untouched (vm.setPc vm'.cpu.pc) vm' ∧
      (Untouched vm vm' ↔ ∀ t, vm.Runs t → t = .call ∨ t = .ret) := by
  rcases step_fails h hs he with ⟨hpc, hu⟩ | ⟨hx, out, hout, hu⟩
  · refine ⟨?_, iff_of_true hu ?_⟩
    · rw [hu.pc]
      exact hu
    · intro t hr
      have := hr.1.2
      omega
  · refine ⟨?_, ?_⟩
    · rw [hu.pc]
      exact hu
    · rw [untouched_iff hu]
      exact pcIncrement_eq_zero_iff hx hout

/-- A program that divides by zero. -/
def divideByZero : DezVm := loadedVm false [0x07000000#32] []

theorem failing_step_atomic_iff_divideByZero :
    Untouched (divideByZero.setPc ((execution zeroHost divideByZero).state 1).cpu.pc)
        ((execution zeroHost divideByZero).state 1) ∧
      (Untouched divideByZero ((execution zeroHost divideByZero).state 1) ↔
        ∀ t, divideByZero.Runs t → t = .call ∨ t = .ret) :=
  failing_step_atomic_iff (execution_valid zeroHost divideByZero 0) rfl (by decide)

/-- The `DIV` fails and the program counter stands behind it. -/
theorem failing_step_moves :
    ¬ ∀ host vm vm', dezVmStep host vm = .ok vm' → vm.cpu.state = .running →
      vm'.cpu.state = .error → Untouched vm vm' := by
  intro h
  have hu := h zeroHost _ _ (execution_valid zeroHost divideByZero 0) rfl (by decide)
  exact absurd hu.pc (by decide)

end Dez.Machine
