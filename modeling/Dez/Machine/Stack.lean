import Dez.BoundedStack
import Dez.Machine.Boot

/-! The machine stack refines a bounded stack of 2048 words. -/
namespace Dez.Machine

open BoundedStack (Op Holds)

variable {host : Host} {vm vm' : DezVm} {t : DezInstructionType} {v : Word}

/-- The stack operation the next step attempts. -/
def stackOp (vm : DezVm) : Option (Op Word) :=
  if vm.Executes then
    match instructionOf vm.fetched with
    | some .push => some (.push (vm.reg (reg1 vm.fetched)))
    | some .call => some (.push (vm.cpu.pc + 1#32))
    | some .pop => some .pop
    | some .ret => some .pop
    | _ => none
  else none

/-- The values pushed and not yet popped before step `n`. -/
def stackAt (E : Execution) : ℕ → BoundedStack Word 2048
  | 0 => .empty
  | n + 1 =>
    match stackOp (E.state n) with
    | some op => (stackAt E n).after op
    | none => stackAt E n

/-- The next step is a store to the stack segment above the stack pointer. -/
def Smashes (vm : DezVm) : Prop :=
  ∃ t x v, vm.Runs t ∧ storeOf vm vm.fetched t = some (x, v) ∧
    vm.cpu.sp.toNat < x.toNat ∧ 0x800 ≤ x.toNat ∧ x.toNat ≤ 0xFFF

/-- What one step does to the stack. -/
inductive StackStep (vm vm' : DezVm) : Prop
  | push (v : Word) (op : stackOp vm = some (.push v)) (low : 0x800 ≤ vm.cpu.sp.toNat)
      (sp : vm'.cpu.sp = vm.cpu.sp - 1#32) (memory : vm'.memory = vm.memory.store vm.cpu.sp v)
      (state : vm'.cpu.state = .running)
  | overflow (v : Word) (op : stackOp vm = some (.push v)) (low : vm.cpu.sp.toNat < 0x800)
      (sp : vm'.cpu.sp = vm.cpu.sp) (memory : vm'.memory = vm.memory)
      (state : vm'.cpu.state = .error)
  | pop (op : stackOp vm = some .pop) (high : vm.cpu.sp.toNat < 0xFFF)
      (sp : vm'.cpu.sp = vm.cpu.sp + 1#32) (memory : vm'.memory = vm.memory)
      (state : vm'.cpu.state = .running)
  | underflow (op : stackOp vm = some .pop) (high : 0xFFF ≤ vm.cpu.sp.toNat)
      (sp : vm'.cpu.sp = vm.cpu.sp) (memory : vm'.memory = vm.memory)
      (state : vm'.cpu.state = .error)
  | other (op : stackOp vm = none) (sp : vm'.cpu.sp = vm.cpu.sp)

theorem stackOp_runs (h : vm.Runs t) : stackOp vm =
    match t with
    | .push => some (.push (vm.reg (reg1 vm.fetched)))
    | .call => some (.push (vm.cpu.pc + 1#32))
    | .pop => some .pop
    | .ret => some .pop
    | _ => none := by
  unfold stackOp
  rw [if_pos h.1, h.2]
  cases t <;> rfl

theorem stackStep_full {name : String} {e : Effect} {increment : Word}
    (hr : vm.cpu.state = .running) (hop : stackOp vm = some (.push v))
    (hsp : (e.perform vm.traced).cpu.sp = vm.cpu.sp - 1#32)
    (hmem : (e.perform vm.traced).memory = vm.memory.store vm.cpu.sp v)
    (hstate : (e.perform vm.traced).cpu.state = vm.cpu.state) :
    StackStep vm (((Effect.unlessFull vm.cpu.sp name e).perform vm.traced).advance vm.cpu.pc
      increment) := by
  unfold Effect.unlessFull
  split
  · exact .overflow v hop ‹_› (by simp; rfl) (by rw [DezVm.advance_memory]; rfl) (by simp; rfl)
  · exact .push v hop (by omega) (by simpa using hsp) (by rwa [DezVm.advance_memory])
      (by simpa [hstate] using hr)

theorem stackStep_empty {name : String} {e : Effect} {increment : Word}
    (hr : vm.cpu.state = .running) (hop : stackOp vm = some .pop)
    (hsp : (e.perform vm.traced).cpu.sp = vm.cpu.sp + 1#32)
    (hmem : (e.perform vm.traced).memory = vm.memory)
    (hstate : (e.perform vm.traced).cpu.state = vm.cpu.state) :
    StackStep vm (((Effect.unlessEmpty vm.cpu.sp name e).perform vm.traced).advance vm.cpu.pc
      increment) := by
  unfold Effect.unlessEmpty
  split
  · exact .pop hop ‹_› (by simpa using hsp) (by rwa [DezVm.advance_memory])
      (by simpa [hstate] using hr)
  · exact .underflow hop (by omega) (by simp; rfl) (by rw [DezVm.advance_memory]; rfl)
      (by simp; rfl)

theorem step_stack (h : dezVmStep host vm = .ok vm') : StackStep vm vm' := by
  rcases step_cases h with ⟨hs, rfl⟩ | ⟨-, hpc, rfl⟩ | ⟨he, rfl⟩
  · exact .other (if_neg fun he => hs he.1) rfl
  · exact .other (if_neg fun he => by have := he.2; omega) rfl
  · cases hi : instructionOf vm.fetched with
    | none =>
      refine .other (by simp [stackOp, hi]) ?_
      simp only [next, effect, hi, advance_sp]
      rfl
    | some t =>
      have hr : vm.Runs t := ⟨he, hi⟩
      have hop := stackOp_runs hr
      simp only [next, effect, pcIncrement, hi]
      cases t with
      | push => exact stackStep_full he.1 hop rfl rfl rfl
      | call => exact stackStep_full he.1 hop rfl rfl rfl
      | pop => exact stackStep_empty he.1 hop rfl rfl rfl
      | ret => exact stackStep_empty he.1 hop rfl rfl rfl
      | div | jz | jnz | jl | jg | jle | jge | sys | loadIndirect | storeIndirect | loadIndexed
        | storeIndexed =>
        refine .other hop ?_
        simp only [advance_sp, instructionEffect, sysEffect, Effect.jumpIf, Effect.checked]
        split <;> rfl
      | _ => exact .other hop (by rw [advance_sp]; rfl)

theorem step_invariant (h : dezVmStep host vm = .ok vm') (hi : Invariant vm) : Invariant vm' := by
  have hlow := hi.low
  have hhigh := hi.high
  have hguard : Protected vm'.memory ∨ vm'.cpu.state = .error := by
    rcases hi.guarded with hp | hs
    · exact .inl (step_protected h hp)
    · exact .inr (step_error h hs)
  cases step_stack h with
  | push v op low sp memory state =>
    have : (vm.cpu.sp - 1#32).toNat = vm.cpu.sp.toNat - 1 := by bv_omega
    exact ⟨by rw [sp]; omega, by rw [sp]; omega, hguard⟩
  | pop op high sp memory state =>
    have : (vm.cpu.sp + 1#32).toNat = vm.cpu.sp.toNat + 1 := by bv_omega
    exact ⟨by rw [sp]; omega, by rw [sp]; omega, hguard⟩
  | overflow v op low sp memory state => exact ⟨by rwa [sp], by rwa [sp], hguard⟩
  | underflow op high sp memory state => exact ⟨by rwa [sp], by rwa [sp], hguard⟩
  | other op sp => exact ⟨by rwa [sp], by rwa [sp], hguard⟩

theorem invariant_run {E : Execution} (hE : Valid E) (hb : Booted (E.state 0)) (n : ℕ) :
    Invariant (E.state n) :=
  hE.invariant (fun _ _ _ => step_invariant) (invariant_booted hb) n

theorem Reachable.invariant (h : Reachable vm) : Invariant vm := by
  obtain ⟨E, n, hE, hb, rfl⟩ := h
  exact invariant_run hE hb n

/-- Only a smashing store writes above the stack pointer. -/
theorem word_above (h : dezVmStep host vm = .ok vm') (hi : Invariant vm) (hs : ¬ Smashes vm)
    {a : ℕ} (ha : vm.cpu.sp.toNat < a) (htop : a ≤ 0xFFF) :
    vm'.memory.word a = vm.memory.word a := by
  have hlow := hi.low
  apply step_word h
  intro v hw
  rcases written_cases hw with ⟨hr, rfl, -⟩ | ⟨x, t, hr, -, hst, rfl, -⟩ | ⟨-, rfl, -⟩
  · exact hs ⟨.store, _, _, hr, rfl, ha, by omega, htop⟩
  · exact hs ⟨t, x, v, hr, hst, ha, by omega, htop⟩
  · omega

/-- One step of the machine is one operation of the stack it holds. -/
theorem step_holds {s : BoundedStack Word 2048} (h : dezVmStep host vm = .ok vm')
    (hi : Invariant vm) (hs : ¬ Smashes vm)
    (hh : Holds vm.memory.word 0xFFF vm.cpu.sp.toNat s) :
    Holds vm'.memory.word 0xFFF vm'.cpu.sp.toNat
      (match stackOp vm with | some op => s.after op | none => s) := by
  have hlow := hi.low
  have hhigh := hi.high
  have habove := fun a => word_above h hi hs (a := a)
  have hfull := hh.full_iff
  have hempty := hh.empty_iff
  cases step_stack h with
  | push v op low sp memory state =>
    obtain ⟨m, hm⟩ : ∃ m, vm.cpu.sp.toNat = m + 1 := ⟨vm.cpu.sp.toNat - 1, by omega⟩
    have hsp : vm'.cpu.sp.toNat = m := by rw [sp]; bv_omega
    have hb := s.bounded
    have hacc : vm.memory.Accepts vm.cpu.sp := by
      have hr : vm.cpu.state = .running := by
        by_contra hr
        rw [stackOp, if_neg fun he => hr he.1] at op
        cases op
      exact ((hi.protected hr).accepts_iff _).mpr ⟨by omega, by omega⟩
    rw [op, hsp]
    rw [hm] at hh habove hfull
    refine hh.push (by omega) ?_ habove
    rw [memory, DezMemory.store, if_pos hacc, hm, DezMemory.word_put_self (by omega)]
  | pop op high sp memory state =>
    have hsp : vm'.cpu.sp.toNat = vm.cpu.sp.toNat + 1 := by rw [sp]; bv_omega
    rw [op, hsp, memory]
    exact hh.pop fun he => by have := hempty.mp he; omega
  | overflow v op low sp memory state =>
    rw [op, sp, memory]
    simp only [BoundedStack.after_push_full (hfull.mpr (by omega)), hh]
  | underflow op high sp memory state =>
    rw [op, sp, memory]
    simp only [BoundedStack.after_pop_empty (hempty.mpr (by omega)), hh]
  | other op sp =>
    rw [op, sp]
    exact hh.frame habove

theorem stack_holds {E : Execution} (hE : Valid E) (hb : Booted (E.state 0)) (n : ℕ)
    (hs : ∀ k < n, ¬ Smashes (E.state k)) :
    Holds (E.state n).memory.word 0xFFF (E.state n).cpu.sp.toNat (stackAt E n) := by
  induction n with
  | zero =>
    have hsp : (E.state 0).cpu.sp.toNat = 0xFFF := by
      rcases hb.cases with hcpu | ⟨debugMode, ws, strings, -, -, h⟩
      · rw [hcpu]
        rfl
      · rw [h]
        rfl
    rw [hsp]
    exact BoundedStack.holds_empty ..
  | succ n ih =>
    exact step_holds (hE n) (invariant_run hE hb n) (hs n (by omega))
      (ih fun k hk => hs k (by omega))

/-- Step `n` of a run treats the machine stack as the bounded stack. -/
structure StackRefined (E : Execution) (n : ℕ) : Prop where
  holds : Holds (E.state n).memory.word 0xFFF (E.state n).cpu.sp.toNat (stackAt E n)
  push : (E.state n).Runs .push →
    ((E.state (n + 1)).cpu.state = .error ↔ (stackAt E n).items.length = 2048) ∧
    ((stackAt E n).items.length < 2048 → (stackAt E (n + 1)).items =
      (E.state n).reg (reg1 (E.state n).fetched) :: (stackAt E n).items)
  call : (E.state n).Runs .call →
    ((E.state (n + 1)).cpu.state = .error ↔ (stackAt E n).items.length = 2048) ∧
    ((stackAt E n).items.length < 2048 → (stackAt E (n + 1)).items =
      ((E.state n).cpu.pc + 1#32) :: (stackAt E n).items)
  pop : (E.state n).Runs .pop →
    ((E.state (n + 1)).cpu.state = .error ↔ (stackAt E n).items = []) ∧
    ∀ v rest, (stackAt E n).items = v :: rest → (stackAt E (n + 1)).items = rest ∧
      (E.state (n + 1)).reg (reg1 (E.state n).fetched) = v
  ret : (E.state n).Runs .ret →
    ((E.state (n + 1)).cpu.state = .error ↔ (stackAt E n).items = []) ∧
    ∀ v rest, (stackAt E n).items = v :: rest → (stackAt E (n + 1)).items = rest ∧
      (E.state (n + 1)).cpu.pc = v
  other : stackOp (E.state n) = none → stackAt E (n + 1) = stackAt E n

theorem stackAt_succ {E : Execution} {n : ℕ} {op : Op Word} (h : stackOp (E.state n) = some op) :
    stackAt E (n + 1) = (stackAt E n).after op := by
  simp [stackAt, h]

/-- A push or call fails exactly on a full stack. -/
theorem pushes_iff {s : BoundedStack Word 2048} (h : dezVmStep host vm = .ok vm')
    (hop : stackOp vm = some (.push v)) (hh : Holds vm.memory.word 0xFFF vm.cpu.sp.toNat s) :
    vm'.cpu.state = .error ↔ s.items.length = 2048 := by
  rw [hh.full_iff]
  cases step_stack h with
  | push w op low sp memory state => simp [state]; omega
  | overflow w op low sp memory state =>
    have := hh.pointer
    have := s.bounded
    simp [state]
    omega
  | pop op | underflow op | other op => simp [hop] at op

/-- A pop or return fails exactly on an empty stack. -/
theorem pops_iff {s : BoundedStack Word 2048} (h : dezVmStep host vm = .ok vm')
    (hop : stackOp vm = some .pop) (hh : Holds vm.memory.word 0xFFF vm.cpu.sp.toNat s) :
    vm'.cpu.state = .error ↔ s.items = [] := by
  rw [hh.empty_iff]
  cases step_stack h with
  | pop op high sp memory state => simp [state]; omega
  | underflow op high sp memory state =>
    have := hh.pointer
    simp [state]
    omega
  | push w op | overflow w op | other op => simp [hop] at op

/-- Below the end of the stack, the word above the pointer is the most recent value. -/
theorem popped_word {s : BoundedStack Word 2048} {rest : List Word}
    (hh : Holds vm.memory.word 0xFFF vm.cpu.sp.toNat s) (hs : s.items = v :: rest) :
    vm.cpu.sp.toNat < 0xFFF ∧ vm.memory.word (vm.cpu.sp + 1#32).toNat = v := by
  have hp := hh.pointer
  have hb := s.bounded
  rw [hs, List.length_cons] at hp hb
  have hsp : (vm.cpu.sp + 1#32).toNat = vm.cpu.sp.toNat + 1 := by bv_omega
  rw [hsp]
  exact ⟨by omega, hh.head (t := ⟨rest, by omega⟩) hs⟩

theorem pop_delivers {s : BoundedStack Word 2048} {rest : List Word}
    (h : dezVmStep host vm = .ok vm') (hr : vm.Runs .pop)
    (hh : Holds vm.memory.word 0xFFF vm.cpu.sp.toNat s) (hs : s.items = v :: rest) :
    vm'.reg (reg1 vm.fetched) = v := by
  obtain ⟨hlt, hw⟩ := popped_word hh hs
  rw [step_runs hr] at h
  cases h
  simp only [advance_reg, instructionEffect, Effect.unlessEmpty, if_pos hlt]
  exact (CArray.set_self _ _ _).trans hw

theorem ret_delivers {s : BoundedStack Word 2048} {rest : List Word}
    (h : dezVmStep host vm = .ok vm') (hr : vm.Runs .ret)
    (hh : Holds vm.memory.word 0xFFF vm.cpu.sp.toNat s) (hs : s.items = v :: rest) :
    vm'.cpu.pc = v := by
  obtain ⟨hlt, hw⟩ := popped_word hh hs
  rw [step_runs hr] at h
  cases h
  simp only [instructionEffect, Effect.unlessEmpty, if_pos hlt]
  exact (advance_pc_zero ..).trans hw

theorem items_after_pop {s : BoundedStack Word 2048} {rest : List Word} (hs : s.items = v :: rest) :
    (s.after .pop).items = rest := by
  have hb := s.bounded
  rw [hs, List.length_cons] at hb
  rw [BoundedStack.after_pop (t := ⟨rest, by omega⟩) hs]

/-- The stack pointer never leaves its range, and without smashing stores the words above it are
exactly the values pushed by `PUSH` and `CALL` and not yet taken by `POP` and `RET`. -/
theorem machine_stack_refines {E : Execution} (hE : Valid E) (hb : Booted (E.state 0)) :
    (∀ n, 0x7FF ≤ (E.state n).cpu.sp.toNat ∧ (E.state n).cpu.sp.toNat ≤ 0xFFF) ∧
    ∀ n, (∀ k < n, ¬ Smashes (E.state k)) → StackRefined E n := by
  refine ⟨fun n => ⟨(invariant_run hE hb n).low, (invariant_run hE hb n).high⟩, fun n hs => ?_⟩
  have hh := stack_holds hE hb n hs
  have hn := hE n
  refine ⟨hh, fun hr => ?_, fun hr => ?_, fun hr => ?_, fun hr => ?_, fun hop => ?_⟩
  · have hop := stackOp_runs hr
    refine ⟨pushes_iff hn hop hh, fun hlt => ?_⟩
    rw [stackAt_succ hop, BoundedStack.after_push hlt]
  · have hop := stackOp_runs hr
    refine ⟨pushes_iff hn hop hh, fun hlt => ?_⟩
    rw [stackAt_succ hop, BoundedStack.after_push hlt]
  · have hop := stackOp_runs hr
    refine ⟨pops_iff hn hop hh, fun v rest hi => ⟨?_, pop_delivers hn hr hh hi⟩⟩
    rw [stackAt_succ hop, items_after_pop hi]
  · have hop := stackOp_runs hr
    refine ⟨pops_iff hn hop hh, fun v rest hi => ⟨?_, ret_delivers hn hr hh hi⟩⟩
    rw [stackAt_succ hop, items_after_pop hi]
  · simp [stackAt, hop]

/-- A program that pushes `R0`, pops it into `R1` and halts. -/
def pushPop : DezVm := loadedVm false [0x0B000000#32, 0x0C100000#32, 0x00000000#32] []

theorem machine_stack_refines_pushPop :
    (∀ n, 0x7FF ≤ ((execution zeroHost pushPop).state n).cpu.sp.toNat ∧
      ((execution zeroHost pushPop).state n).cpu.sp.toNat ≤ 0xFFF) ∧
    StackRefined (execution zeroHost pushPop) 1 := by
  have h := machine_stack_refines (execution_valid zeroHost pushPop)
    (booted_loadedVm false [] (by decide) (by decide))
  refine ⟨h.1, h.2 1 fun k hk => ?_⟩
  obtain rfl : k = 0 := by omega
  rintro ⟨t, x, v, hr, hst, -⟩
  have hpush : pushPop.Runs .push := by decide
  cases hr.2.symm.trans hpush.2
  cases hst

end Dez.Machine
