import Dez.Machine.Step

/-! The one memory word a step can write, and what a step never changes. -/
namespace Dez.Machine

variable {host : Host} {vm vm' : DezVm} {a : ℕ} {v w : Word}

/-- The memory keeps its layout and still refuses writes to the code segment. -/
structure Protected (mem : DezMemory) : Prop where
  start : mem.codeStart = 0x0000#32
  stop : mem.codeEnd = 0x03FF#32
  readonly : mem.codeReadonly = true

theorem Protected.accepts_iff {mem : DezMemory} (h : Protected mem) (a : Word) :
    mem.Accepts a ↔ 0x400 ≤ a.toNat ∧ a.toNat < 4096 := by
  unfold DezMemory.Accepts memoryIsCodeSegment
  simp only [h.start, h.stop, h.readonly, Bool.and_true, Bool.and_eq_false_iff,
    decide_eq_false_iff_not]
  constructor
  · rintro ⟨h1, h2 | h2⟩
    · simp at h2
    · simp at h2
      omega
  · rintro ⟨h1, h2⟩
    exact ⟨h2, .inr (by simp; omega)⟩

theorem Protected.put {mem : DezMemory} (h : Protected mem) (a : ℕ) (v : Word) :
    Protected (mem.put a v) := by
  unfold DezMemory.put
  split
  · exact ⟨h.start, h.stop, h.readonly⟩
  · exact h

/-- The cell `memory_write_word` writes, if it accepts the address. -/
def accepted (mem : DezMemory) (a v : Word) : Option (ℕ × Word) :=
  if mem.Accepts a then some (a.toNat, v) else none

theorem accepted_eq_some {mem : DezMemory} {x y : Word} :
    accepted mem x y = some (a, v) ↔ mem.Accepts x ∧ a = x.toNat ∧ v = y := by
  unfold accepted
  split <;> simp_all [eq_comm]

/-- The memory with the written cell replaced. -/
def DezMemory.after (mem : DezMemory) : Option (ℕ × Word) → DezMemory
  | some (a, v) => mem.put a v
  | none => mem

theorem store_eq_after (mem : DezMemory) (a v : Word) :
    mem.store a v = mem.after (accepted mem a v) := by
  unfold DezMemory.store accepted
  split <;> rfl

/-- The cell an effect writes and the value it gets. -/
def Effect.writes (vm : DezVm) : Effect → Option (ℕ × Word)
  | .assign a v => some (a, v)
  | .store a v => accepted vm.memory a v
  | .push v => accepted vm.memory vm.cpu.sp v
  | .call _ => accepted vm.memory vm.cpu.sp (vm.cpu.pc + 1#32)
  | _ => none

theorem Effect.perform_memory (e : Effect) (vm : DezVm) :
    (e.perform vm).memory = vm.memory.after (e.writes vm) := by
  cases e with
  | store a v => exact store_eq_after ..
  | push v => exact store_eq_after ..
  | call target => exact store_eq_after ..
  | _ => rfl

namespace DezVm

/-- The memory cell the next step writes, with its value. -/
def written (host : Host) (vm : DezVm) : Option (ℕ × Word) :=
  if vm.Executes then (effect host vm vm.fetched).writes vm else none

theorem advance_memory (vm : DezVm) (oldPc increment : Word) :
    (vm.advance oldPc increment).memory = vm.memory := by
  unfold advance
  split <;> rfl

end DezVm

theorem step_memory (h : dezVmStep host vm = .ok vm') :
    vm'.memory = vm.memory.after (vm.written host) := by
  unfold DezVm.written
  rcases step_cases h with ⟨hs, rfl⟩ | ⟨-, hpc, rfl⟩ | ⟨he, rfl⟩
  · rw [if_neg (fun he => hs he.1)]
    rfl
  · rw [if_neg (fun he => by have := he.2; omega)]
    rfl
  · rw [if_pos he, next, DezVm.advance_memory, Effect.perform_memory]
    rfl

/-- A step changes no word but the one it writes. -/
theorem step_word (h : dezVmStep host vm = .ok vm') {b : ℕ}
    (hb : ∀ v, vm.written host ≠ some (b, v)) : vm'.memory.word b = vm.memory.word b := by
  rw [step_memory h]
  cases hw : vm.written host with
  | none => rfl
  | some p => exact DezMemory.word_put_of_ne (fun hba => hb p.2 (by rw [hw, hba])) p.2

theorem step_word_written (h : dezVmStep host vm = .ok vm') (hw : vm.written host = some (a, v))
    (ha : a < 4096) : vm'.memory.word a = v := by
  rw [step_memory h, hw]
  exact DezMemory.word_put_self ha v

theorem step_protected (h : dezVmStep host vm = .ok vm') (hp : Protected vm.memory) :
    Protected vm'.memory := by
  rw [step_memory h]
  cases vm.written host with
  | none => exact hp
  | some p => exact hp.put _ _

/-- The effective address of a store and the value it stores. -/
def storeOf (vm : DezVm) (w : Word) : DezInstructionType → Option (Word × Word)
  | .store => some (decodeImmediate w, vm.reg (reg1 w))
  | .storeIndirect => some (vm.reg (reg2 w), vm.reg (reg1 w))
  | .storeIndexed => some (vm.reg (reg2 w) + vm.reg (reg3 w), vm.reg (reg1 w))
  | _ => none

/-- Only `STORE` writes past the protection; every other write was accepted. -/
theorem written_cases (h : vm.written host = some (a, v)) :
    (vm.Runs .store ∧ a = (decodeImmediate vm.fetched).toNat ∧ v = vm.reg (reg1 vm.fetched)) ∨
    (∃ x t, vm.Runs t ∧ t ≠ .store ∧ storeOf vm vm.fetched t = some (x, v) ∧ a = x.toNat ∧
      vm.memory.Accepts x) ∨
    ((vm.Runs .push ∨ vm.Runs .call) ∧ a = vm.cpu.sp.toNat ∧ 0x800 ≤ a ∧
      vm.memory.Accepts vm.cpu.sp) := by
  unfold DezVm.written at h
  split at h
  case isFalse => cases h
  rename_i he
  unfold effect at h
  split at h
  case h_2 => cases h
  rename_i t ht
  have hr : vm.Runs t := ⟨he, ht⟩
  cases t with
  | store =>
    cases h
    exact .inl ⟨hr, rfl, rfl⟩
  | storeIndirect =>
    simp only [instructionEffect, Effect.checked] at h
    split at h
    · obtain ⟨hacc, ha, rfl⟩ := accepted_eq_some.mp h
      exact .inr (.inl ⟨_, _, hr, by decide, rfl, ha, hacc⟩)
    · cases h
  | storeIndexed =>
    simp only [instructionEffect, Effect.checked] at h
    split at h
    · obtain ⟨hacc, ha, rfl⟩ := accepted_eq_some.mp h
      exact .inr (.inl ⟨_, _, hr, by decide, rfl, ha, hacc⟩)
    · cases h
  | push =>
    simp only [instructionEffect, Effect.unlessFull] at h
    split at h
    · cases h
    · obtain ⟨hacc, ha, -⟩ := accepted_eq_some.mp h
      exact .inr (.inr ⟨.inl hr, ha, by omega, hacc⟩)
  | call =>
    simp only [instructionEffect, Effect.unlessFull] at h
    split at h
    · cases h
    · obtain ⟨hacc, ha, -⟩ := accepted_eq_some.mp h
      exact .inr (.inr ⟨.inr hr, ha, by omega, hacc⟩)
  | div | jz | jnz | jl | jg | jle | jge | pop | ret | sys | loadIndirect | loadIndexed =>
    simp only [instructionEffect, sysEffect, Effect.jumpIf, Effect.checked, Effect.unlessEmpty] at h
    split at h <;> cases h
  | _ => cases h

end Dez.Machine
