import Dez.Machine.Stack

/-! What the store instructions do to the code segment, and which stored values stay readable. -/
namespace Dez.Machine

variable {host : Host} {vm vm' : DezVm} {t : DezInstructionType} {x v : Word}

/-- The next step is a `STORE` that changes a word of the code segment. -/
def OverwritesCode (vm : DezVm) : Prop :=
  vm.Runs .store ∧ (decodeImmediate vm.fetched).toNat < 0x400 ∧
    vm.memory.word (decodeImmediate vm.fetched).toNat ≠ vm.reg (reg1 vm.fetched)

/-- Every write to the code segment is a `STORE`. -/
theorem written_code (hp : Protected vm.memory) {a : ℕ} (ha : a < 0x400)
    (h : vm.written host = some (a, v)) :
    vm.Runs .store ∧ a = (decodeImmediate vm.fetched).toNat ∧ v = vm.reg (reg1 vm.fetched) := by
  rcases written_cases h with hst | ⟨x, t, -, -, -, rfl, hacc⟩ | ⟨-, -, hlow, -⟩
  · exact hst
  · have := ((hp.accepts_iff x).mp hacc).1
    omega
  · omega

theorem written_store (h : vm.Runs .store) :
    vm.written host =
      some ((decodeImmediate vm.fetched).toNat, vm.reg (reg1 vm.fetched)) := by
  simp only [DezVm.written, if_pos h.1, effect, h.2]
  rfl

/-- A step keeps the code segment unless it overwrites a word of it. -/
theorem step_code (h : dezVmStep host vm = .ok vm') (hp : Protected vm.memory)
    (hk : ¬ OverwritesCode vm) {a : ℕ} (ha : a < 0x400) :
    vm'.memory.word a = vm.memory.word a := by
  cases hw : vm.written host with
  | none => exact step_word h (by simp [hw])
  | some p =>
    obtain ⟨b, v⟩ := p
    by_cases hab : b = a
    · subst b
      obtain ⟨hr, rfl, rfl⟩ := written_code hp ha hw
      rw [step_word_written h hw (by omega)]
      by_contra hne
      exact hk ⟨hr, ha, fun he => hne he.symm⟩
    · exact step_word h (by simp [hw, hab])

theorem step_overwrites (h : dezVmStep host vm = .ok vm') (hk : OverwritesCode vm) :
    ∃ a < 0x400, vm'.memory.word a ≠ vm.memory.word a := by
  obtain ⟨hr, ha, hne⟩ := hk
  refine ⟨_, ha, ?_⟩
  rw [step_word_written h (written_store hr) (by omega)]
  exact hne.symm

/-- The code segment keeps what loading put there exactly as long as no `STORE` changes it. -/
theorem code_segment_kept_iff {E : Execution} (hE : Valid E) (hl : Loaded (E.state 0)) (n : ℕ) :
    (∀ k ≤ n, ∀ a < 0x400, (E.state k).memory.word a = (E.state 0).memory.word a) ↔
      ∀ k < n, ¬ OverwritesCode (E.state k) := by
  have hp : ∀ k, Protected (E.state k).memory := fun k =>
    hE.invariant (fun _ _ _ => step_protected) ((invariant_booted hl.1).protected hl.2) k
  constructor
  · intro h k hk ho
    obtain ⟨a, ha, hne⟩ := step_overwrites (hE k) ho
    exact hne ((h (k + 1) hk a ha).trans (h k hk.le a ha).symm)
  · intro h k hk a ha
    induction k with
    | zero => rfl
    | succ k ih => exact (step_code (hE k) (hp k) (h k hk) ha).trans (ih (by omega))

/-- `MOV R0, 5` and `STORE R0, 0` before a halt. -/
def storeToCode : DezVm := loadedVm false [0x10000005#32, 0x03000000#32, 0x00000000#32] []

theorem code_segment_kept_iff_storeToCode :
    (∀ k ≤ 1, ∀ a < 0x400, ((execution zeroHost storeToCode).state k).memory.word a =
      ((execution zeroHost storeToCode).state 0).memory.word a) ↔
      ∀ k < 1, ¬ OverwritesCode ((execution zeroHost storeToCode).state k) :=
  code_segment_kept_iff (execution_valid _ _) (loaded_loadedVm false [] (by decide) (by decide)) 1

/-- The second instruction of `storeToCode` replaces its first. -/
theorem code_segment_overwritten :
    ¬ ∀ E, Valid E → Loaded (E.state 0) →
      ∀ n, ∀ a < 0x400, (E.state n).memory.word a = (E.state 0).memory.word a := by
  intro h
  have hkept := h _ (execution_valid zeroHost storeToCode)
    (loaded_loadedVm false [] (by decide) (by decide)) 2 0 (by decide)
  have hnew : ((execution zeroHost storeToCode).state 2).memory.word 0 = 5#32 := by decide
  have hold : ((execution zeroHost storeToCode).state 0).memory.word 0 = 0x10000005#32 := by decide
  rw [hnew, hold] at hkept
  exact absurd hkept (by decide)

/-- The effective address of a load. -/
def loadOf (vm : DezVm) (w : Word) : DezInstructionType → Option Word
  | .load => some (decodeImmediate w)
  | .loadIndirect => some (vm.reg (reg2 w))
  | .loadIndexed => some (vm.reg (reg2 w) + vm.reg (reg3 w))
  | _ => none

/-- After a store of `v` to `x` the machine stopped, or the word is there; and as long as no step
writes the word again, every load from `x` delivers `v`. -/
def StoreKept (vm' : DezVm) (x v : Word) : Prop :=
  (vm'.cpu.state = .error ∨ vm'.memory.word x.toNat = v) ∧
  ∀ E, Valid E → E.state 0 = vm' → ∀ n,
    (∀ k < n, ∀ u, (E.state k).written (E.host k) ≠ some (x.toNat, u)) →
    ∀ t, (E.state n).Runs t → loadOf (E.state n) (E.state n).fetched t = some x →
      (E.state (n + 1)).reg (reg1 (E.state n).fetched) = v

/-- Everything a store can do: stop on a wild address, or write as far as its path lets it. -/
theorem step_store (h : dezVmStep host vm = .ok vm') (hr : vm.Runs t)
    (hst : storeOf vm vm.fetched t = some (x, v)) :
    (4096 ≤ x.toNat ∧ vm'.cpu.state = .error) ∨
    (x.toNat < 4096 ∧ vm'.cpu.state = .running ∧
      vm'.memory = if t = .store then vm.memory.put x.toNat v else vm.memory.store x v) := by
  have hrun := hr.1.1
  rw [step_runs hr] at h
  cases h
  simp only [advance_state, DezVm.advance_memory]
  cases t with
  | store =>
    cases hst
    exact .inr ⟨decodeImmediate_lt _, hrun, rfl⟩
  | storeIndirect | storeIndexed =>
    cases hst
    simp only [instructionEffect, Effect.checked]
    split
    · exact .inr ⟨‹_›, hrun, rfl⟩
    · exact .inl ⟨by omega, rfl⟩
  | _ => cases hst

theorem step_load (h : dezVmStep host vm = .ok vm') (hr : vm.Runs t)
    (hl : loadOf vm vm.fetched t = some x) (hx : x.toNat < 4096) :
    vm'.reg (reg1 vm.fetched) = vm.memory.word x.toNat := by
  rw [step_runs hr] at h
  cases h
  rw [advance_reg]
  cases t with
  | load =>
    cases hl
    exact CArray.set_self ..
  | loadIndirect | loadIndexed =>
    cases hl
    simp only [instructionEffect, Effect.checked, if_pos hx]
    exact CArray.set_self ..
  | _ => cases hl

/-- A word no step writes keeps its value. -/
theorem word_unwritten {E : Execution} (hE : Valid E) {a n : ℕ}
    (h : ∀ k < n, ∀ u, (E.state k).written (E.host k) ≠ some (a, u)) :
    (E.state n).memory.word a = (E.state 0).memory.word a := by
  induction n with
  | zero => rfl
  | succ n ih => exact (step_word (hE n) (h n (by omega))).trans (ih fun k hk => h k (by omega))

/-- In the array, a stored word that is there is what every later load finds. -/
theorem storeKept_of_word (hx : x.toNat < 4096) (hw : vm'.memory.word x.toNat = v) :
    StoreKept vm' x v := by
  refine ⟨.inr hw, ?_⟩
  rintro E hE rfl n hn t hr hl
  rw [step_load (hE n) hr hl hx, word_unwritten hE hn, hw]

theorem storeKept_of_error (h : vm'.cpu.state = .error) : StoreKept vm' x v := by
  refine ⟨.inl h, ?_⟩
  rintro E hE rfl n - t hr -
  have herr := hE.invariant (P := fun vm => vm.cpu.state = .error) (fun _ _ _ => step_error) h n
  simp [hr.1.1] at herr

/-- A store is kept if and only if it is a `STORE`, or aims outside the code segment, or stores what
is already there. -/
theorem store_kept_iff (hv : Reachable vm) (hr : vm.Runs t)
    (hst : storeOf vm vm.fetched t = some (x, v)) (h : dezVmStep host vm = .ok vm') :
    StoreKept vm' x v ↔ t = .store ∨ 0x400 ≤ x.toNat ∨ vm.memory.word x.toNat = v := by
  have hacc := (hv.invariant.protected hr.1.1).accepts_iff x
  rcases step_store h hr hst with ⟨hx, herr⟩ | ⟨hx, hrun, hmem⟩
  · exact iff_of_true (storeKept_of_error herr) (.inr (.inl (by omega)))
  · constructor
    · rintro ⟨herr | hw, -⟩
      · simp [hrun] at herr
      · by_contra hno
        push Not at hno
        obtain ⟨hne, hlow, hold⟩ := hno
        rw [hmem, if_neg hne, DezMemory.store, if_neg (by rw [hacc]; omega)] at hw
        exact hold hw
    · intro hc
      apply storeKept_of_word hx
      rw [hmem]
      split
      · exact DezMemory.word_put_self hx v
      · unfold DezMemory.store
        split
        · exact DezMemory.word_put_self hx v
        · rename_i hne hna
          rw [hacc] at hna
          exact (hc.resolve_left hne).resolve_left (by omega)

/-- `MOV R1, 5` and `STORE R1, R0` through register 0, before a halt. -/
def refusedStore : DezVm := loadedVm false [0x10100005#32, 0x20100000#32, 0x00000000#32] []

theorem reachable_run (host : Host) (hb : Booted vm) (n : ℕ) :
    Reachable ((execution host vm).state n) :=
  ⟨_, n, execution_valid host vm, hb, rfl⟩

theorem store_kept_iff_refusedStore :
    StoreKept ((execution zeroHost refusedStore).state 2) 0#32 5#32 ↔
      DezInstructionType.storeIndirect = .store ∨ 0x400 ≤ (0#32).toNat ∨
        ((execution zeroHost refusedStore).state 1).memory.word (0#32).toNat = 5#32 :=
  store_kept_iff (reachable_run zeroHost (booted_loadedVm false [] (by decide) (by decide)) 1)
    (t := .storeIndirect) (by decide) (by decide) (execution_valid zeroHost refusedStore 1)

/-- The indirect store of `refusedStore` is dropped and the machine runs on. -/
theorem store_lost :
    ¬ ∀ host vm vm' t x v, Reachable vm → vm.Runs t → storeOf vm vm.fetched t = some (x, v) →
      dezVmStep host vm = .ok vm' → StoreKept vm' x v := by
  intro h
  have hkept := h zeroHost _ _ .storeIndirect 0#32 5#32
    (reachable_run zeroHost (booted_loadedVm false [] (by decide) (by decide)) 1)
    (by decide) (by decide) (execution_valid zeroHost refusedStore 1)
  have hrun : ((execution zeroHost refusedStore).state 2).cpu.state = .running := by decide
  have hword : ((execution zeroHost refusedStore).state 2).memory.word 0 = 0x10100005#32 := by
    decide
  rcases hkept.1 with herr | hw
  · exact absurd (hrun.symm.trans herr) (by decide)
  · exact absurd (hword.symm.trans hw) (by decide)

end Dez.Machine
