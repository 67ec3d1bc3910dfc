import Dez.Machine.Boot

/-! The steps whose integer operations C defines, whatever the machine computes on. -/
namespace Dez.Machine

variable {host : Host} {vm vm' : DezVm} {t : DezInstructionType} {E : Execution}

/-- The next step shifts by 32 or more. -/
def Overshifts (vm : DezVm) : Prop :=
  (vm.Runs .shl ∨ vm.Runs .shr) ∧ 32 ≤ (vm.reg (reg3 vm.fetched)).toNat

/-- A step has the same outcome on every host, and divides and shifts as numbers do. -/
structure StepDefined (vm vm' : DezVm) : Prop where
  determined : ∀ host, dezVmStep host vm = .ok vm'
  div : vm.Runs .div →
    if thirdOperand vm vm.fetched = 0#32 then vm'.cpu.state = .error
    else (vm'.reg (reg1 vm.fetched)).toNat =
      (vm.reg (reg2 vm.fetched)).toNat / (thirdOperand vm vm.fetched).toNat
  shl : vm.Runs .shl → (vm'.reg (reg1 vm.fetched)).toNat =
    (vm.reg (reg2 vm.fetched)).toNat * 2 ^ (vm.reg (reg3 vm.fetched)).toNat % 2 ^ 32
  shr : vm.Runs .shr → (vm'.reg (reg1 vm.fetched)).toNat =
    (vm.reg (reg2 vm.fetched)).toNat / 2 ^ (vm.reg (reg3 vm.fetched)).toNat

/-- The guarded division never asks the host. -/
theorem quotient_of_ne {a b : Word} (h : b ≠ 0#32) : host.quotient a b = a / b := if_neg h

theorem shiftLeft_of_lt {a b : Word} (h : b.toNat < 32) : host.shiftLeft a b = a <<< b.toNat :=
  if_pos h

theorem shiftRight_of_lt {a b : Word} (h : b.toNat < 32) : host.shiftRight a b = a >>> b.toNat :=
  if_pos h

/-- Only a shift by 32 or more can depend on the host. -/
theorem instructionEffect_host {w : Word} (other : Host)
    (h : t = .shl ∨ t = .shr → (vm.reg (reg3 w)).toNat < 32) :
    instructionEffect host vm w t = instructionEffect other vm w t := by
  cases t with
  | shl =>
    have hlt := h (.inl rfl)
    simp only [instructionEffect, shiftLeft_of_lt hlt]
  | shr =>
    have hlt := h (.inr rfl)
    simp only [instructionEffect, shiftRight_of_lt hlt]
  | div =>
    simp only [instructionEffect]
    split
    · rfl
    · rename_i hne
      rw [quotient_of_ne hne, quotient_of_ne hne]
  | _ => rfl

theorem step_host (h : ¬ Overshifts vm) (host other : Host) :
    dezVmStep host vm = dezVmStep other vm := by
  by_cases hx : vm.Executes
  · rw [dezVmStep_executes hx, dezVmStep_executes hx, next, next]
    have heffect : effect host vm vm.fetched = effect other vm vm.fetched := by
      unfold effect
      cases hi : instructionOf vm.fetched with
      | none => rfl
      | some t =>
        apply instructionEffect_host
        intro ht
        by_contra hge
        refine h ⟨?_, by omega⟩
        rcases ht with rfl | rfl
        · exact .inl ⟨hx, hi⟩
        · exact .inr ⟨hx, hi⟩
    rw [heffect]
  · unfold dezVmStep
    by_cases hs : vm.cpu.state = .running
    · have hpc : vm.cpu.pc.toNat ≥ 4096 := by
        by_contra hlt
        exact hx ⟨hs, by omega⟩
      rw [if_neg (not_not_intro hs), if_neg (not_not_intro hs), if_pos hpc, if_pos hpc]
    · rw [if_pos hs, if_pos hs]

/-- A register an instruction sets, after the whole step. -/
theorem step_setReg {v : Word} (h : dezVmStep host vm = .ok vm') (hr : vm.Runs t)
    (he : instructionEffect host vm vm.fetched t = .setReg (reg1 vm.fetched) v) :
    vm'.reg (reg1 vm.fetched) = v := by
  rw [step_runs hr, he] at h
  cases h
  rw [advance_reg]
  exact CArray.set_self ..

/-- A step that does not overshift computes what the arithmetic says. -/
theorem stepDefined (h : dezVmStep host vm = .ok vm') (ho : ¬ Overshifts vm) :
    StepDefined vm vm' where
  determined other := (step_host ho other host).trans h
  div hr := by
    split
    · rename_i hzero
      rw [step_runs hr] at h
      cases h
      rw [advance_state, instructionEffect, if_pos hzero]
      rfl
    · rename_i hne
      rw [step_setReg h hr (if_neg hne), quotient_of_ne hne, BitVec.toNat_udiv]
  shl hr := by
    have hlt : (vm.reg (reg3 vm.fetched)).toNat < 32 := by
      by_contra hge
      exact ho ⟨.inl hr, by omega⟩
    rw [step_setReg h hr rfl, shiftLeft_of_lt hlt, BitVec.toNat_shiftLeft, Nat.shiftLeft_eq]
  shr hr := by
    have hlt : (vm.reg (reg3 vm.fetched)).toNat < 32 := by
      by_contra hge
      exact ho ⟨.inr hr, by omega⟩
    rw [step_setReg h hr rfl, shiftRight_of_lt hlt, BitVec.toNat_ushiftRight,
      Nat.shiftRight_eq_div_pow]

/-- A host that gives one value for every undefined operation. -/
def constantHost (v : Word) : Host where
  div := fun _ => v
  shl := fun _ _ => v
  shr := fun _ _ => v
  shortRead := fun _ _ => v

/-- An overshift gives what the host likes. -/
theorem step_overshifts (ho : Overshifts vm) {v : Word}
    (h : dezVmStep (constantHost v) vm = .ok vm') : vm'.reg (reg1 vm.fetched) = v := by
  obtain ⟨hr | hr, hge⟩ := ho
  · rw [step_setReg h hr rfl, Host.shiftLeft, if_neg (by omega)]
    rfl
  · rw [step_setReg h hr rfl, Host.shiftRight, if_neg (by omega)]
    rfl

theorem not_stepDefined (ho : Overshifts vm) : ¬ StepDefined vm vm' := by
  intro h
  have h0 := step_overshifts ho (h.determined (constantHost 0#32))
  have h1 := step_overshifts ho (h.determined (constantHost 1#32))
  exact absurd (h0.symm.trans h1) (by decide)

/-- The steps of a run perform no undefined operation exactly as long as no `SHL` or `SHR` has a
count of 32 or more in its register; divisions are guarded. -/
theorem arithmetic_defined_iff (hE : Valid E) (n : ℕ) :
    (∀ k < n, StepDefined (E.state k) (E.state (k + 1))) ↔
      ∀ k < n, ¬ Overshifts (E.state k) := by
  constructor
  · intro h k hk ho
    exact not_stepDefined ho (h k hk)
  · intro h k hk
    exact stepDefined (hE k) (h k hk)

/-- Without overshifts the host has no part in the run. -/
theorem run_determined (hE : Valid E) {F : Execution} (hF : Valid F) (h0 : F.state 0 = E.state 0)
    {n : ℕ} (ho : ∀ k < n, ¬ Overshifts (E.state k)) : F.state n = E.state n := by
  induction n with
  | zero => exact h0
  | succ n ih =>
    have hn := ih fun k hk => ho k (by omega)
    have hstep := hF n
    rw [hn, step_host (ho n (by omega)) _ (E.host n), hE n] at hstep
    exact (Except.ok.inj hstep).symm

/-- `MOV R1, 32` and `SHL R0, R1, R1` before a halt. -/
def shiftByWidth : DezVm := loadedVm false [0x10100020#32, 0x17011000#32, 0x00000000#32] []

theorem arithmetic_defined_iff_shiftByWidth :
    (∀ k < 2, StepDefined ((execution zeroHost shiftByWidth).state k)
        ((execution zeroHost shiftByWidth).state (k + 1))) ↔
      ∀ k < 2, ¬ Overshifts ((execution zeroHost shiftByWidth).state k) :=
  arithmetic_defined_iff (execution_valid zeroHost shiftByWidth) 2

/-- The second step of the program shifts by 32. -/
theorem shift_undefined :
    ¬ ∀ E, Valid E → Loaded (E.state 0) → ∀ k, StepDefined (E.state k) (E.state (k + 1)) := by
  intro h
  have hdefined := h _ (execution_valid zeroHost shiftByWidth)
    (loaded_loadedVm false [] (by decide) (by decide)) 1
  refine not_stepDefined ⟨.inl ?_, ?_⟩ hdefined
  · decide
  · decide

end Dez.Machine
