import Dez.Execution.Words
import Dez.Machine.Failures

/-! The instructions with three operands, from their source line to what the machine computes. -/
namespace Dez.Execution

open Assembler Machine

variable {host : Host} {vm : DezVm} {inst : ParsedInstruction} {d a b : Fin 16} {last : Operand}
  {stale : ℕ → Word} {table : SymbolTable}

/-- The value an instruction computes from its two sources, as numbers; none is an error. -/
def computed (vm : DezVm) (type : DezInstructionType) (x y : Word) : Option Word :=
  match type with
  | .add => some (BitVec.ofNat 32 (x.toNat + y.toNat))
  | .sub => some (BitVec.ofInt 32 (x.toNat - y.toNat))
  | .mul => some (BitVec.ofNat 32 (x.toNat * y.toNat))
  | .div => if y.toNat = 0 then none else some (BitVec.ofNat 32 (x.toNat / y.toNat))
  | .and => some (x &&& y)
  | .or => some (x ||| y)
  | .xor => some (x ^^^ y)
  | .loadIndexed =>
    let address := (x.toNat + y.toNat) % 2 ^ 32
    if address < 4096 then some (vm.memory.word address) else none
  | _ => none

/-- What the last operand stands for. -/
def sourceValue (vm : DezVm) : Operand → Word
  | .register r => vm.reg r
  | .immediate v => v
  | _ => 0

/-- The instructions whose last operand may be a number. -/
def arithmeticTypes : List DezInstructionType := [.add, .sub, .mul, .div]

/-- The instructions whose last operand is a register. -/
def registerTypes : List DezInstructionType := [.and, .or, .xor, .loadIndexed]

/-- A line with two registers and a register or, for the arithmetic, a number that fits. -/
inductive ThreeOperands (inst : ParsedInstruction) (d a : Fin 16) : Operand → Prop
  | register (b : Fin 16) (ht : inst.type ∈ arithmeticTypes ∨ inst.type ∈ registerTypes)
      (hops : inst.operands = [.register d, .register a, .register b]) :
      ThreeOperands inst d a (.register b)
  | immediate (v : Word) (hv : v.toNat ≤ 2047) (ht : inst.type ∈ arithmeticTypes)
      (hops : inst.operands = [.register d, .register a, .immediate v]) :
      ThreeOperands inst d a (.immediate v)

/-- The word of a register form. -/
theorem encode_registers (ht : inst.type ∈ arithmeticTypes ∨ inst.type ∈ registerTypes)
    (hops : inst.operands = [.register d, .register a, .register b]) :
    (parserEncodeInstruction stale table inst).1 = packed inst.type d a b 0#32 := by
  have h0 : inst.operand 0 = .register d := by simp [ParsedInstruction.operand, hops]
  have h1 : inst.operand 1 = .register a := by simp [ParsedInstruction.operand, hops]
  have h2 : inst.operand 2 = .register b := by simp [ParsedInstruction.operand, hops]
  rcases ht with ht | ht
  · have hno : ¬ (inst.operand 2).type = .immediate := by
      rw [h2]
      intro h
      cases h
    rw [encode_arithmetic ht, if_neg hno, reg_of_register h0, reg_of_register h1,
      reg_of_register h2, encodeArithmetic_packed]
  · apply encode_three ?_ h0 h1 h2
    simp only [registerTypes, List.mem_cons, List.not_mem_nil, or_false] at ht
    rcases ht with ht | ht | ht | ht <;> simp [ht]

/-- The word of an immediate form. -/
theorem encode_immediate {v : Word} (ht : inst.type ∈ arithmeticTypes)
    (hops : inst.operands = [.register d, .register a, .immediate v]) :
    (parserEncodeInstruction stale table inst).1 =
      packed inst.type d a 0 (1#32 <<< 11 ||| (v &&& 0x07FF#32)) := by
  have h0 : inst.operand 0 = .register d := by simp [ParsedInstruction.operand, hops]
  have h1 : inst.operand 1 = .register a := by simp [ParsedInstruction.operand, hops]
  have h2 : inst.operand 2 = .immediate v := by simp [ParsedInstruction.operand, hops]
  have hyes : (inst.operand 2).type = .immediate := by
    rw [h2]
    rfl
  rw [encode_arithmetic ht, if_pos hyes, h2, reg_of_register h0, reg_of_register h1]
  exact encodeImmediateArithmetic_packed inst.type d a v

/-- The operands and the form of an encoded line. -/
structure Encodes (vm : DezVm) (inst : ParsedInstruction) (d a b : Fin 16) (low : Word)
    (last : Operand) : Prop where
  bound : low.toNat < 4096
  mode : isImmediateMode (packed inst.type d a b low) = true ↔ last.type = .immediate
  types : inst.type ∈ arithmeticTypes ∨ inst.type ∈ registerTypes
  third : inst.type ∈ arithmeticTypes →
    thirdOperand vm (packed inst.type d a b low) = sourceValue vm last
  register : inst.type ∈ registerTypes → vm.reg b = sourceValue vm last

theorem not_registerTypes (ht : inst.type ∈ arithmeticTypes) : inst.type ∉ registerTypes := by
  simp only [arithmeticTypes, List.mem_cons, List.not_mem_nil, or_false] at ht
  rcases ht with ht | ht | ht | ht <;> simp [registerTypes, ht]

/-- An encoded line reads back as its operands, in the form it was written in. -/
theorem encodes (stale : ℕ → Word) (table : SymbolTable) (vm : DezVm)
    (h : ThreeOperands inst d a last) :
    ∃ b low, (parserEncodeInstruction stale table inst).1 = packed inst.type d a b low ∧
      Encodes vm inst d a b low last := by
  cases h with
  | register b ht hops =>
    refine ⟨b, 0#32, encode_registers ht hops, by decide, ?_, ht,
      fun _ => thirdOperand_register rfl, fun _ => rfl⟩
    rw [isImmediateMode_packed]
    exact iff_of_false (by decide) (fun h => by cases h)
  | immediate v hv ht hops =>
    exact ⟨0, _, encode_immediate ht hops, extImmediate_lt v,
      iff_of_true (isImmediateMode_flagged v) rfl, .inl ht, fun _ => thirdOperand_immediate hv rfl,
      fun hr => absurd hr (not_registerTypes ht)⟩

section effects

variable (host : Host) (vm : DezVm) (w : Word) {type : DezInstructionType}

/-- The machine computes for an instruction what its two sources give. -/
def Computes (type : DezInstructionType) (x y : Word) : Prop :=
  match computed vm type x y with
  | some v => instructionEffect host vm w type = .setReg (reg1 w) v
  | none => ∃ out, instructionEffect host vm w type = .fail out

theorem computes_arithmetic (ht : type ∈ arithmeticTypes) :
    Computes host vm w type (vm.reg (reg2 w)) (thirdOperand vm w) := by
  cases type with
  | add =>
    have hsum : ∀ x y : Word, x + y = BitVec.ofNat 32 (x.toNat + y.toNat) := by
      intro x y
      rw [BitVec.ofNat_add, BitVec.ofNat_toNat, BitVec.ofNat_toNat, BitVec.setWidth_eq,
        BitVec.setWidth_eq]
    exact congrArg (Effect.setReg _) (hsum _ _)
  | sub =>
    have hdiff : ∀ x y : Word, x - y = BitVec.ofInt 32 (x.toNat - y.toNat) := by
      intro x y
      have hx := x.isLt
      have hy := y.isLt
      apply BitVec.eq_of_toNat_eq
      rw [BitVec.toNat_sub, BitVec.toNat_ofInt]
      omega
    exact congrArg (Effect.setReg _) (hdiff _ _)
  | mul =>
    have hprod : ∀ x y : Word, x * y = BitVec.ofNat 32 (x.toNat * y.toNat) := by
      intro x y
      apply BitVec.eq_of_toNat_eq
      rw [BitVec.toNat_mul, BitVec.toNat_ofNat]
    exact congrArg (Effect.setReg _) (hprod _ _)
  | div =>
    have hquot : ∀ x y : Word, x / y = BitVec.ofNat 32 (x.toNat / y.toNat) := by
      intro x y
      have hle := Nat.div_le_self x.toNat y.toNat
      apply BitVec.eq_of_toNat_eq
      rw [BitVec.toNat_udiv, BitVec.toNat_ofNat, Nat.mod_eq_of_lt (by omega)]
    unfold Computes computed instructionEffect
    by_cases hzero : thirdOperand vm w = 0#32
    · rw [if_pos hzero, hzero]
      exact ⟨_, rfl⟩
    · have hne : ¬ (thirdOperand vm w).toNat = 0 := fun h => hzero (BitVec.eq_of_toNat_eq h)
      simp only [if_neg hzero, if_neg hne, Host.quotient, hquot]
  | _ => simp [arithmeticTypes] at ht

theorem computes_registers (ht : type ∈ registerTypes) :
    Computes host vm w type (vm.reg (reg2 w)) (vm.reg (reg3 w)) := by
  cases type with
  | and | or | xor => rfl
  | loadIndexed =>
    unfold Computes computed instructionEffect Effect.checked
    simp only [BitVec.toNat_add]
    by_cases haddress : ((vm.reg (reg2 w)).toNat + (vm.reg (reg3 w)).toNat) % 2 ^ 32 < 4096
    · simp only [if_pos haddress]
    · simp only [if_neg haddress]
      exact ⟨_, rfl⟩
  | _ => simp [registerTypes] at ht

end effects

/-- A step that ends in an error, behind the instruction, and changes nothing else. -/
def FailsClean (vm vm' : DezVm) : Prop :=
  vm'.cpu.state = .error ∧ Untouched (vm.setPc (vm.cpu.pc + 1#32)) vm'

theorem pcIncrement_computing (ht : type ∈ arithmeticTypes ∨ type ∈ registerTypes) :
    (instructionTable type).pcIncrement = 1#32 := by
  cases type with
  | add | sub | mul | div | and | or | xor | loadIndexed => rfl
  | _ => simp [arithmeticTypes, registerTypes] at ht

/-- Executing the word of a line with three operands computes the operation on the registers and
the number the line names and writes the destination only, or fails. -/
theorem three_operands_execute (host : Host) (stale : ℕ → Word) (table : SymbolTable)
    (h : ThreeOperands inst d a last) (he : vm.Executes)
    (hw : vm.fetched = (parserEncodeInstruction stale table inst).1) :
    (isImmediateMode vm.fetched = true ↔ last.type = .immediate) ∧
    ∃ vm', dezVmStep host vm = .ok vm' ∧
      match computed vm inst.type (vm.reg a) (sourceValue vm last) with
      | some v => vm' = wrote vm d v
      | none => FailsClean vm vm' := by
  obtain ⟨b, low, hword, hlow, hmode, ht, harith, hreg⟩ := encodes stale table vm h
  rw [hword] at hw
  have hr := runs_packed he hlow hw
  have h1 : reg1 vm.fetched = d := by rw [hw, reg1_packed hlow]
  have h2 : reg2 vm.fetched = a := by rw [hw, reg2_packed hlow]
  have h3 : reg3 vm.fetched = b := by rw [hw, reg3_packed hlow]
  have hcomputes : Computes host vm vm.fetched inst.type (vm.reg a) (sourceValue vm last) := by
    rcases ht with ht | ht
    · rw [← harith ht, ← hw, ← h2]
      exact computes_arithmetic host vm _ ht
    · rw [← hreg ht, ← h2, ← h3]
      exact computes_registers host vm _ ht
  refine ⟨hw ▸ hmode, ?_⟩
  unfold Computes at hcomputes
  rw [h1] at hcomputes
  cases hc : computed vm inst.type (vm.reg a) (sourceValue vm last) with
  | some v =>
    rw [hc] at hcomputes
    exact ⟨_, step_writes hr hcomputes (pcIncrement_computing ht), rfl⟩
  | none =>
    rw [hc] at hcomputes
    obtain ⟨out, hfail⟩ := hcomputes
    refine ⟨_, step_runs hr, ?_⟩
    have hpc : vm.traced.cpu.pc = vm.cpu.pc := rfl
    have hfailed := advance_fail vm.traced out 1#32
    rw [hpc] at hfailed
    rw [hfail, pcIncrement_computing ht, Effect.perform, hfailed]
    exact ⟨rfl, rfl⟩

/-- A machine in front of `SUB R1, R1, 5`. -/
def subtractFive : DezVm := loadedVm false [0x05110805#32] []

theorem three_operands_execute_subtractFive :
    (isImmediateMode subtractFive.fetched = true ↔ (Operand.immediate 5).type = .immediate) ∧
    ∃ vm', dezVmStep zeroHost subtractFive = .ok vm' ∧
      match computed subtractFive .sub (subtractFive.reg 1)
          (sourceValue subtractFive (.immediate 5)) with
      | some v => vm' = wrote subtractFive 1 v
      | none => FailsClean subtractFive vm' :=
  have h : ThreeOperands ⟨.sub, [.register 1, .register 1, .immediate 5]⟩ 1 1 (.immediate 5) :=
    .immediate 5 (by decide) (by decide) rfl
  three_operands_execute zeroHost (fun _ => 0) symbolTableInit h (by decide) (by decide)

end Dez.Execution
