import Dez.Assembler.Encoding
import Dez.Machine.Step

/-! A word the assembler makes, in front of the machine. -/
namespace Dez.Execution

open Assembler Machine

variable {host : Host} {vm : DezVm} {type : DezInstructionType} {r1 r2 r3 : Fin 16} {low w v : Word}

/-- The machine with one register set, the instruction traced and the next one at hand. -/
def wrote (vm : DezVm) (r : Fin 16) (v : Word) : DezVm :=
  { vm.traced with
    cpu := { vm.cpu with regs := vm.cpu.regs.set r v, pc := vm.cpu.pc + 1#32 } }

theorem instructionOf_packed (h : low.toNat < 4096) :
    Machine.instructionOf (packed type r1 r2 r3 low) = some type := by
  have hop := @opcode_packed type r1 r2 r3 low h
  unfold Machine.instructionOf
  rw [byteOf] at hop
  rw [hop]
  exact DezInstructionType.ofOpcode_opcode type

theorem runs_packed (he : vm.Executes) (hlow : low.toNat < 4096)
    (hw : vm.fetched = packed type r1 r2 r3 low) : vm.Runs type := by
  refine ⟨he, ?_⟩
  rw [hw]
  exact instructionOf_packed hlow

/-- A step whose instruction sets a register does nothing else. -/
theorem step_writes (hr : vm.Runs type)
    (he : instructionEffect host vm vm.fetched type = .setReg r1 v)
    (hi : (instructionTable type).pcIncrement = 1#32) :
    dezVmStep host vm = .ok (wrote vm r1 v) := by
  rw [step_runs hr, he, hi]
  exact congrArg Except.ok (if_pos rfl)

/-- The machine takes the second register field for a register unless it is zero. -/
theorem decodeReg2_packed (h : low.toNat < 4096) :
    decodeReg2 (packed type r1 r2 r3 low) = 0#8 ↔ r2 = 0 := by
  have hval : (decodeReg2 (packed type r1 r2 r3 low)).toNat = r2.val :=
    congrArg Fin.val (reg2_packed h)
  constructor
  · intro h0
    rw [h0] at hval
    exact Fin.ext hval.symm
  · rintro rfl
    exact BitVec.eq_of_toNat_eq hval

theorem thirdOperand_register (hw : w = packed type r1 r2 r3 0#32) :
    thirdOperand vm w = vm.reg r3 := by
  have hmode : isImmediateMode w = false := by
    rw [hw, isImmediateMode_packed]
    rfl
  unfold thirdOperand
  rw [hmode, if_neg Bool.false_ne_true, hw, reg3_packed (by decide)]

/-- The low bits of the immediate form. -/
theorem toNat_flagged (v : Word) :
    (1#32 <<< 11 ||| (v &&& 0x07FF#32)).toNat = 2 ^ 11 + v.toNat % 2 ^ 11 := by
  have hv := toNat_and_low v 11 0x07FF#32 rfl
  rw [toNat_or_disjoint (k := 11) (m := 1) rfl (by rw [hv]; omega), hv]
  rfl

theorem isImmediateMode_flagged (v : Word) :
    isImmediateMode (packed type r1 r2 0 (1#32 <<< 11 ||| (v &&& 0x07FF#32))) = true := by
  rw [isImmediateMode_packed]
  simp [-BitVec.getLsbD_eq_getElem]

theorem decodeExtImmediate_flagged (v : Word) :
    (decodeExtImmediate (packed type r1 r2 0 (1#32 <<< 11 ||| (v &&& 0x07FF#32)))).toNat =
      v.toNat % 2 ^ 11 := by
  rw [decodeExtImmediate, toNat_and_low _ 11 _ rfl, packed_toNat (extImmediate_lt v),
    toNat_flagged]
  omega

theorem thirdOperand_immediate (hv : v.toNat ≤ 2047)
    (hw : w = packed type r1 r2 0 (1#32 <<< 11 ||| (v &&& 0x07FF#32))) :
    thirdOperand vm w = v := by
  unfold thirdOperand
  rw [hw, isImmediateMode_flagged, if_pos rfl]
  apply BitVec.eq_of_toNat_eq
  rw [decodeExtImmediate_flagged]
  omega

end Dez.Execution
