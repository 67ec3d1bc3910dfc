import Dez.Machine.Stack

/-! A subroutine that gives back the stack it took returns behind its call. -/
namespace Dez.Machine

variable {E : Execution} {i j : ℕ} {host : Host} {vm vm' : DezVm} {a : ℕ} {low : Word}

/-- The next step stores at an address or above. -/
def StoresFrom (low : Word) (vm : DezVm) : Prop :=
  ∃ t x v, vm.Runs t ∧ storeOf vm vm.fetched t = some (x, v) ∧ low.toNat ≤ x.toNat

/-- After the call at step `i` and up to step `j` the part of the stack that was there before the
call is neither taken nor stored to. -/
structure KeepsFrame (E : Execution) (i j : ℕ) : Prop where
  deep : ∀ k, i < k → k ≤ j → (E.state k).cpu.sp.toNat < (E.state i).cpu.sp.toNat
  stores : ∀ k, i < k → k < j → ¬ StoresFrom (E.state i).cpu.sp (E.state k)

/-- After step `j` the run goes on behind the call of step `i`, with the stack of that time. -/
structure Resumes (E : Execution) (i j : ℕ) : Prop where
  running : (E.state (j + 1)).cpu.state = .running
  pc : (E.state (j + 1)).cpu.pc = (E.state i).cpu.pc + 1#32
  sp : (E.state (j + 1)).cpu.sp = (E.state i).cpu.sp
  stack : ∀ a, (E.state i).cpu.sp.toNat < a →
    (E.state (j + 1)).memory.word a = (E.state i).memory.word a

/-- Pushes and calls write at the stack pointer, and stores where they say. -/
theorem word_kept (h : dezVmStep host vm = .ok vm') (hs : ¬ StoresFrom low vm)
    (hsp : vm.cpu.sp.toNat < low.toNat) (ha : low.toNat ≤ a) :
    vm'.memory.word a = vm.memory.word a := by
  apply step_word h
  intro v hw
  rcases written_cases hw with ⟨hr, rfl, -⟩ | ⟨x, t, hr, -, hst, rfl, -⟩ | ⟨-, rfl, -⟩
  · exact hs ⟨.store, _, _, hr, rfl, ha⟩
  · exact hs ⟨t, x, v, hr, hst, ha⟩
  · omega

theorem KeepsFrame.words (h : KeepsFrame E i j) (hE : Valid E) {k : ℕ} (hik : i + 1 ≤ k)
    (hkj : k ≤ j) (ha : (E.state i).cpu.sp.toNat ≤ a) :
    (E.state k).memory.word a = (E.state (i + 1)).memory.word a := by
  induction k, hik using Nat.le_induction with
  | base => rfl
  | succ k hik ih =>
    rw [← ih (by omega)]
    exact word_kept (hE k) (h.stores k hik hkj) (h.deep k hik (by omega)) ha

/-- A call that does not overflow leaves its return address on top of the caller's stack. -/
theorem call_enters (h : dezVmStep host vm = .ok vm') (hi : Invariant vm) (hr : vm.Runs .call)
    (hok : vm'.cpu.state = .running) :
    vm'.memory.word vm.cpu.sp.toNat = vm.cpu.pc + 1#32 ∧
      ∀ a, vm.cpu.sp.toNat < a → vm'.memory.word a = vm.memory.word a := by
  have hop := stackOp_runs hr
  have hhigh := hi.high
  cases step_stack h with
  | push v op low sp memory state =>
    obtain rfl : vm.cpu.pc + 1#32 = v := by
      rw [hop] at op
      cases op
      rfl
    have hacc : vm.memory.Accepts vm.cpu.sp :=
      ((hi.protected hr.1.1).accepts_iff _).mpr ⟨by omega, by omega⟩
    rw [memory, DezMemory.store, if_pos hacc]
    refine ⟨DezMemory.word_put_self (by omega) _, fun a ha => ?_⟩
    exact DezMemory.word_put_of_ne (by omega) _
  | overflow v op low sp memory state =>
    rw [state] at hok
    cases hok
  | pop op high sp memory state => simp [hop] at op
  | underflow op high sp memory state => simp [hop] at op
  | other op sp => simp [hop] at op

/-- A return goes where the word above the stack pointer says. -/
theorem ret_leaves (h : dezVmStep host vm = .ok vm') (hr : vm.Runs .ret)
    (hlt : vm.cpu.sp.toNat < 0xFFF) : vm'.cpu.state = .running ∧
      vm'.cpu.pc = vm.memory.word (vm.cpu.sp.toNat + 1) ∧ vm'.cpu.sp = vm.cpu.sp + 1#32 ∧
      vm'.memory = vm.memory := by
  have hop := stackOp_runs hr
  have hpc : vm'.cpu.pc = vm.memory.word (vm.cpu.sp.toNat + 1) := by
    have hsp : (vm.cpu.sp + 1#32).toNat = vm.cpu.sp.toNat + 1 := by bv_omega
    rw [step_runs hr] at h
    cases h
    simp only [instructionEffect, Effect.unlessEmpty, if_pos hlt, ← hsp]
    exact advance_pc_zero ..
  cases step_stack h with
  | pop op high sp memory state => exact ⟨state, hpc, sp, memory⟩
  | underflow op high sp memory state => omega
  | push v op low sp memory state => simp [hop] at op
  | overflow v op low sp memory state => simp [hop] at op
  | other op sp => simp [hop] at op

/-- In every run, whatever a subroutine pushes, pops and calls: if it leaves its caller's part of
the stack alone, a `RET` goes on behind the `CALL`, with the caller's stack as it was, if and only
if the subroutine has popped all that it pushed. -/
theorem subroutine_resumes_iff (hE : Valid E) (hb : Booted (E.state 0)) (hij : i < j)
    (hcall : (E.state i).Runs .call) (hok : (E.state (i + 1)).cpu.state = .running)
    (hkeeps : KeepsFrame E i j) (hret : (E.state j).Runs .ret) :
    Resumes E i j ↔ (E.state j).cpu.sp.toNat + 1 = (E.state i).cpu.sp.toNat := by
  have hinv := invariant_run hE hb i
  have hhigh := hinv.high
  have hdeep := hkeeps.deep j hij le_rfl
  obtain ⟨hreturn, habove⟩ := call_enters (hE i) hinv hcall hok
  obtain ⟨hrunning, hpc, hsp, hmemory⟩ := ret_leaves (hE j) hret (by omega)
  have hwords := fun a => @KeepsFrame.words E i j a hkeeps hE j hij le_rfl
  constructor
  · intro h
    have hlevel := congrArg BitVec.toNat (hsp.symm.trans h.sp)
    bv_omega
  · intro hlevel
    refine ⟨hrunning, ?_, ?_, ?_⟩
    · rw [hpc, hlevel, hwords _ le_rfl, hreturn]
    · rw [hsp]
      bv_omega
    · intro a ha
      rw [hmemory, hwords a ha.le, habove a ha]

/-- A call of a subroutine that pushes and pops: `CALL 2` and `HALT`, and `PUSH R1`, `POP R1` and
`RET` behind them. -/
def callPushPop : DezVm :=
  loadedVm false [0x0F000002#32, 0#32, 0x0B100000#32, 0x0C100000#32, 0x11000000#32] []

theorem subroutine_resumes_iff_callPushPop : Resumes (execution zeroHost callPushPop) 0 3 ↔
    ((execution zeroHost callPushPop).state 3).cpu.sp.toNat + 1 =
      ((execution zeroHost callPushPop).state 0).cpu.sp.toNat := by
  have hkeeps : KeepsFrame (execution zeroHost callPushPop) 0 3 := by
    constructor
    · intro k h0 h3
      have hdeep : ∀ k < 4, 0 < k → ((execution zeroHost callPushPop).state k).cpu.sp.toNat <
          ((execution zeroHost callPushPop).state 0).cpu.sp.toNat := by decide +kernel
      exact hdeep k (by omega) h0
    · rintro k h0 h3 ⟨t, x, v, hruns, hstore, -⟩
      have hfetched : ∀ k < 3, 0 < k →
          instructionOf ((execution zeroHost callPushPop).state k).fetched = some .push ∨
            instructionOf ((execution zeroHost callPushPop).state k).fetched = some .pop := by
        decide +kernel
      rcases hfetched k h3 h0 with hpush | hpop
      · cases hpush.symm.trans hruns.2
        cases hstore
      · cases hpop.symm.trans hruns.2
        cases hstore
  exact subroutine_resumes_iff (execution_valid zeroHost callPushPop)
    (booted_loadedVm false [] (by decide) (by decide)) (by decide) (by decide) (by decide)
    hkeeps (by decide +kernel)

end Dez.Machine
