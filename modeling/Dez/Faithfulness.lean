import Dez.ShownFields
import Dez.Machine.Boot

/-! Whether words that disassemble to the same text do the same on every machine state. -/
namespace Dez.Disassembler

open Machine

variable {host : Host} {vm : DezVm} {w w' : Word} {t : DezInstructionType}

/-- `get_instruction_info(opcode)->execute` has the same effect for both words on every machine
state. -/
def SameExecution (w w' : Word) : Prop :=
  ∀ host vm, (getInstructionInfo (decodeOpcode w)).execute host vm w =
    (getInstructionInfo (decodeOpcode w')).execute host vm w'

/-- The second source of the arithmetic instructions: their mode, and in the immediate mode their
number. -/
def SameOperand (w w' : Word) : Prop :=
  isImmediateMode w = isImmediateMode w' ∧
    (isImmediateMode w = true → decodeExtImmediate w = decodeExtImmediate w')

/-- The fields that a handler reads and the text leaves out, equal in two words. -/
def HiddenAgree (w w' : Word) : Prop :=
  match DezInstructionType.ofOpcode (decodeOpcode w) with
  | some .add | some .sub | some .mul | some .div => SameOperand w w'
  | some .cmp => decodeReg2 w = 0#8 → decodeImmediate w = decodeImmediate w'
  | some .sys => decodeImmediate w = decodeImmediate w'
  | _ => True

theorem sameExecution_iff (ht : DezInstructionType.ofOpcode (decodeOpcode w) = some t)
    (ht' : DezInstructionType.ofOpcode (decodeOpcode w') = some t) :
    SameExecution w w' ↔ ∀ host vm, (instructionEffect host vm w t).perform vm =
      (instructionEffect host vm w' t).perform vm := by
  have hexec : ∀ {u : Word} (host : Host) (vm : DezVm),
      DezInstructionType.ofOpcode (decodeOpcode u) = some t →
      (getInstructionInfo (decodeOpcode u)).execute host vm u =
        .ok ((instructionEffect host vm u t).perform vm) := by
    intro u host vm hu
    rw [getInstructionInfo, hu]
    exact execute_eq ..
  constructor
  · intro h host vm
    have hsame := h host vm
    rw [hexec host vm ht, hexec host vm ht'] at hsame
    exact Except.ok.inj hsame
  · intro h host vm
    rw [hexec host vm ht, hexec host vm ht', h host vm]

section effects

theorem reg1_congr (h : decodeReg1 w = decodeReg1 w') : reg1 w = reg1 w' := by
  simp only [reg1, h]

theorem reg2_congr (h : decodeReg2 w = decodeReg2 w') : reg2 w = reg2 w' := by
  simp only [reg2, h]

theorem reg3_congr (h : decodeReg3 w = decodeReg3 w') : reg3 w = reg3 w' := by
  simp only [reg3, h]

theorem thirdOperand_congr (h : SameOperand w w') (h3 : decodeReg3 w = decodeReg3 w')
    (vm : DezVm) : thirdOperand vm w = thirdOperand vm w' := by
  obtain ⟨hmode, himm⟩ := h
  unfold thirdOperand
  rw [← hmode, reg3_congr h3]
  split
  · rename_i hm
    exact himm hm
  · rfl

/-- What the text shows and the hidden fields are all that a handler reads. -/
theorem effect_congr (ht : DezInstructionType.ofOpcode (decodeOpcode w) = some t)
    (hs : SameShown t w w') (hh : HiddenAgree w w') :
    instructionEffect host vm w t = instructionEffect host vm w' t := by
  unfold HiddenAgree at hh
  rw [ht] at hh
  cases t with
  | mov | load | store | jz | jnz =>
    obtain ⟨h1, himm⟩ := hs
    simp only [instructionEffect, reg1_congr h1, himm]
  | jmp =>
    have himm : decodeImmediate w = decodeImmediate w' := hs
    simp only [instructionEffect, himm]
  | add | sub | mul | div =>
    obtain ⟨h1, h2, h3⟩ := hs
    simp only [instructionEffect, reg1_congr h1, reg2_congr h2, thirdOperand_congr hh h3]
  | loadIndexed | storeIndexed =>
    obtain ⟨h1, h2, h3⟩ := hs
    simp only [instructionEffect, reg1_congr h1, reg2_congr h2, reg3_congr h3]
  | cmp =>
    obtain ⟨h1, h2⟩ := hs
    have hsource : (if decodeReg2 w != 0#8 then vm.reg (reg2 w) else decodeImmediate w) =
        if decodeReg2 w' != 0#8 then vm.reg (reg2 w') else decodeImmediate w' := by
      rw [← h2, reg2_congr h2]
      split
      · rfl
      · rename_i h0
        exact hh (by simpa using h0)
    simp only [instructionEffect, reg1_congr h1, hsource]
  | loadIndirect | storeIndirect =>
    obtain ⟨h1, h2⟩ := hs
    simp only [instructionEffect, reg1_congr h1, reg2_congr h2]
  | sys =>
    have h1 : decodeReg1 w = decodeReg1 w' := hs
    have himm : decodeImmediate w = decodeImmediate w' := hh
    simp only [instructionEffect, sysEffect, h1, reg1_congr h1, himm]
  | inc | dec =>
    have h1 : decodeReg1 w = decodeReg1 w' := hs
    simp only [instructionEffect, reg1_congr h1]
  | halt | nop => rfl
  | push | pop | jl | jg | jle | jge | call | ret | and | or | xor | not | shl | shr =>
    have hw : w = w' := hs
    rw [hw]

end effects

/-- A machine with one number in all its registers. -/
def evenVm (c : Word) : DezVm :=
  { dezVmInit with cpu := { dezVmInit.cpu with regs := fun _ => c } }

@[simp] theorem evenVm_reg (c : Word) (r : Fin 16) : (evenVm c).reg r = c := rfl

theorem setReg_inj {r : Fin 16} {v v' : Word} (h : vm.setReg r v = vm.setReg r v') : v = v' := by
  have hreg := congrArg (fun m => m.reg r) h
  simpa [DezVm.reg, DezVm.setReg] using hreg

/-- An operation that tells numbers apart, and every number from some register's content, tells
different second sources apart. -/
theorem sameOperand_of_separated {β : Type} (op : Word → Word → β)
    (hnumbers : ∀ i j, i ≠ j → ∃ c, op c i ≠ op c j) (hregister : ∀ i, ∃ c, op c i ≠ op c c)
    (h : ∀ c, op c (thirdOperand (evenVm c) w) = op c (thirdOperand (evenVm c) w')) :
    SameOperand w w' := by
  unfold thirdOperand at h
  simp only [evenVm_reg] at h
  unfold SameOperand
  cases hm : isImmediateMode w <;> cases hm' : isImmediateMode w'
  case false.false => exact ⟨rfl, fun h => by cases h⟩
  case false.true =>
    obtain ⟨c, hc⟩ := hregister (decodeExtImmediate w')
    exact absurd (by simpa [hm, hm'] using (h c).symm) hc
  case true.false =>
    obtain ⟨c, hc⟩ := hregister (decodeExtImmediate w)
    exact absurd (by simpa [hm, hm'] using h c) hc
  case true.true =>
    refine ⟨rfl, fun _ => ?_⟩
    by_contra hne
    obtain ⟨c, hc⟩ := hnumbers _ _ hne
    exact hc (by simpa [hm, hm'] using h c)

theorem add_separates : (∀ i j : Word, i ≠ j → ∃ c, c + i ≠ c + j) ∧
    ∀ i : Word, ∃ c, c + i ≠ c + c := by
  refine ⟨fun i j hij => ⟨0, by simpa using hij⟩, fun i => ⟨i + 1#32, ?_⟩⟩
  bv_omega

theorem sub_separates : (∀ i j : Word, i ≠ j → ∃ c, c - i ≠ c - j) ∧
    ∀ i : Word, ∃ c, c - i ≠ c - c := by
  refine ⟨fun i j hij => ⟨0, ?_⟩, fun i => ⟨i + 1#32, ?_⟩⟩
  · bv_omega
  · bv_omega

theorem mul_separates : (∀ i j : Word, i ≠ j → ∃ c, c * i ≠ c * j) ∧
    ∀ i : Word, ∃ c, c * i ≠ c * c := by
  refine ⟨fun i j hij => ⟨1, by simpa using hij⟩, fun i => ?_⟩
  by_cases h1 : i = 1#32
  · exact ⟨3, by rw [h1]; decide⟩
  · exact ⟨1, by simpa using h1⟩

/-- The quotient that `DIV` stores, if it does not fail. -/
def quotientOf (a b : Word) : Option Word := if b = 0#32 then none else some (a / b)

theorem div_separates : (∀ i j : Word, i ≠ j → ∃ c, quotientOf c i ≠ quotientOf c j) ∧
    ∀ i : Word, ∃ c, quotientOf c i ≠ quotientOf c c := by
  have hlt : ∀ i j : Word, i.toNat < j.toNat → quotientOf i i ≠ quotientOf i j := by
    intro i j hij
    have hj : j ≠ 0#32 := by
      rintro rfl
      exact absurd hij (Nat.not_lt_zero _)
    have hquotient : i / j = 0#32 := by
      apply BitVec.eq_of_toNat_eq
      rw [BitVec.toNat_udiv, Nat.div_eq_of_lt hij]
      rfl
    unfold quotientOf
    rw [if_neg hj, hquotient]
    by_cases hi : i = 0#32
    · simp [hi]
    · have hpos : 0 < i.toNat := by
        have hne : i.toNat ≠ 0 := fun h => hi (BitVec.eq_of_toNat_eq h)
        omega
      have hself : i / i = 1#32 := by
        apply BitVec.eq_of_toNat_eq
        rw [BitVec.toNat_udiv, Nat.div_self hpos]
        rfl
      rw [if_neg hi, hself]
      decide
  refine ⟨fun i j hij => ?_, fun i => ?_⟩
  · rcases Nat.lt_or_gt_of_ne (fun h => hij (BitVec.eq_of_toNat_eq h)) with hlt' | hlt'
    · exact ⟨i, hlt i j hlt'⟩
    · exact ⟨j, (hlt j i hlt').symm⟩
  · by_cases h0 : i = 0#32
    · exact ⟨1, by rw [h0]; decide⟩
    · exact ⟨0, by simp [quotientOf, h0]⟩

/-- Two divisions with the same outcome, failure included, have the same quotient. -/
theorem quotientOf_of_perform {r : Fin 16} {a b b' : Word} {out : Output}
    (h : Effect.perform (if b = 0#32 then .fail out else .setReg r (host.quotient a b)) vm =
      Effect.perform (if b' = 0#32 then .fail out else .setReg r (host.quotient a b')) vm)
    (hstate : vm.cpu.state = .running) : quotientOf a b = quotientOf a b' := by
  have hne : vm.cpu.state ≠ .error := by
    rw [hstate]
    decide
  unfold quotientOf
  by_cases hb : b = 0#32 <;> by_cases hb' : b' = 0#32
  · rw [if_pos hb, if_pos hb']
  · rw [if_pos hb, if_neg hb'] at h
    exact absurd (congrArg (fun m => m.cpu.state) h).symm hne
  · rw [if_neg hb, if_pos hb'] at h
    exact absurd (congrArg (fun m => m.cpu.state) h) hne
  · rw [if_neg hb, if_neg hb'] at h
    have hvalue := setReg_inj h
    rw [Host.quotient, Host.quotient, if_neg hb, if_neg hb'] at hvalue
    rw [if_neg hb, if_neg hb', hvalue]

/-- What `SYS` does on a machine whose registers all point at the end of the string window. -/
def callEffect (r : Byte) (call : Word) : List Output × DezVmState :=
  match call.toNat with
  | 1 => ([.printf "R%d = %d\n" [r.setWidth 32, 0x200#32]], .running)
  | 3 => ([.putc ((0x200#32).setWidth 8)], .running)
  | 2 => ([], .running)
  | 6 => ([.printf "Program exited with code %d\n" [0x200#32]], .halted)
  | _ => ([.printf "Unknown system call: %d\n" [call]], .running)

theorem callEffect_inj {r : Byte} {call call' : Word} (h : callEffect r call = callEffect r call') :
    call = call' := by
  unfold callEffect at h
  split at h <;> split at h <;> first
    | exact BitVec.eq_of_toNat_eq (by omega)
    | exact (List.cons.inj (Output.printf.inj (List.cons.inj (Prod.mk.inj h).1).1).2).1
    | exact absurd h (by simp)

theorem sysEffect_evenVm (w : Word) :
    let vm := (sysEffect (evenVm 0x200#32) w).perform (evenVm 0x200#32)
    (vm.stdout, vm.cpu.state) = callEffect (decodeReg1 w) (decodeImmediate w) := by
  unfold sysEffect callEffect
  generalize (decodeImmediate w).toNat = n
  rcases n with _ | _ | _ | _ | _ | _ | _ | n <;> rfl

theorem compareFlags_eq {a b : Word} (h : compareFlags a a = compareFlags a b) : a = b := by
  by_contra hne
  unfold compareFlags at h
  rw [if_pos rfl, if_neg hne] at h
  split at h <;> exact absurd h (by decide)

/-- Where the hidden fields differ, some machine state shows it. -/
theorem hidden_of_effect (ht : DezInstructionType.ofOpcode (decodeOpcode w) = some t)
    (hs : SameShown t w w') (h : ∀ host vm, (instructionEffect host vm w t).perform vm =
      (instructionEffect host vm w' t).perform vm) : HiddenAgree w w' := by
  unfold HiddenAgree
  rw [ht]
  cases t with
  | add =>
    obtain ⟨h1, -, -⟩ := hs
    refine sameOperand_of_separated (· + ·) add_separates.1 add_separates.2 fun c => ?_
    have heffect := h zeroHost (evenVm c)
    simp only [instructionEffect, reg1_congr h1] at heffect
    exact setReg_inj heffect
  | sub =>
    obtain ⟨h1, -, -⟩ := hs
    refine sameOperand_of_separated (· - ·) sub_separates.1 sub_separates.2 fun c => ?_
    have heffect := h zeroHost (evenVm c)
    simp only [instructionEffect, reg1_congr h1] at heffect
    exact setReg_inj heffect
  | mul =>
    obtain ⟨h1, -, -⟩ := hs
    refine sameOperand_of_separated (· * ·) mul_separates.1 mul_separates.2 fun c => ?_
    have heffect := h zeroHost (evenVm c)
    simp only [instructionEffect, reg1_congr h1] at heffect
    exact setReg_inj heffect
  | div =>
    obtain ⟨h1, -, -⟩ := hs
    refine sameOperand_of_separated quotientOf div_separates.1 div_separates.2 fun c => ?_
    have heffect := h zeroHost (evenVm c)
    simp only [instructionEffect, reg1_congr h1] at heffect
    exact quotientOf_of_perform heffect rfl
  | cmp =>
    obtain ⟨h1, h2⟩ := hs
    intro h0
    have heffect := h zeroHost (evenVm (decodeImmediate w))
    have h0' : decodeReg2 w' = 0#8 := h2.symm.trans h0
    simp only [instructionEffect, h0, h0', bne_self_eq_false, Bool.false_eq_true, if_false,
      evenVm_reg] at heffect
    exact compareFlags_eq (congrArg (fun m => m.cpu.flags) heffect)
  | sys =>
    have h1 : decodeReg1 w = decodeReg1 w' := hs
    have heffect := h zeroHost (evenVm 0x200#32)
    have hcall := congrArg (fun m => (m.stdout, m.cpu.state)) heffect
    have hw := sysEffect_evenVm w
    have hw' := sysEffect_evenVm w'
    rw [← h1] at hw'
    exact callEffect_inj (hw.symm.trans (hcall.trans hw'))
  | _ => exact trivial

/-- Two words with one text do the same on every machine state if and only if the fields that the
text does not show agree: the mode bit and the immediate of the arithmetic instructions, the
immediate that `CMP` with register 0 compares with, and the number of an unknown system call. -/
theorem sameExecution_iff_hidden {outputSize : ℕ} (hn : 64 ≤ outputSize)
    (h : dezDisasmInstruction w outputSize = dezDisasmInstruction w' outputSize) :
    SameExecution w w' ↔ HiddenAgree w w' := by
  have htext : disassembly w = disassembly w' := by
    have hw := length_disassembly_lt w
    have hw' := length_disassembly_lt w'
    unfold dezDisasmInstruction at h
    rw [if_neg (by omega), if_neg (by omega), List.take_of_length_le (by omega),
      List.take_of_length_le (by omega)] at h
    exact Option.some.inj h
  rcases cases_of_text htext with rfl | ⟨t, ht, ht', hs⟩
  · refine iff_of_true (fun host vm => rfl) ?_
    unfold HiddenAgree
    split <;> simp [SameOperand]
  · rw [sameExecution_iff ht ht']
    exact ⟨hidden_of_effect ht hs, fun hh host vm => by rw [effect_congr ht hs hh]⟩

/-- Two spellings of `NOP`. -/
theorem sameExecution_iff_hidden_nop :
    dezDisasmInstruction 0x12000000#32 256 = dezDisasmInstruction 0x12000001#32 256 ∧
      SameExecution 0x12000000#32 0x12000001#32 :=
  have htext : dezDisasmInstruction 0x12000000#32 256 = dezDisasmInstruction 0x12000001#32 256 := by
    decide
  ⟨htext, (sameExecution_iff_hidden (by decide) htext).mpr trivial⟩

/-- `ADD R2, R1, 5` prints as `ADD R2, R1, R0`. -/
theorem add_prints_alike : ¬ ∀ w w' : Word,
    dezDisasmInstruction w 256 = dezDisasmInstruction w' 256 → SameExecution w w' := by
  intro h
  have hsame := h 0x04210805#32 0x04210000#32 (by decide)
  have ht : DezInstructionType.ofOpcode (decodeOpcode 0x04210805#32) = some .add := by decide
  have ht' : DezInstructionType.ofOpcode (decodeOpcode 0x04210000#32) = some .add := by decide
  have hshown : SameShown .add 0x04210805#32 0x04210000#32 := ⟨by decide, by decide, by decide⟩
  have hhidden := hidden_of_effect ht hshown ((sameExecution_iff ht ht').mp hsame)
  unfold HiddenAgree at hhidden
  rw [ht] at hhidden
  exact absurd hhidden.1 (by decide)

end Dez.Disassembler
