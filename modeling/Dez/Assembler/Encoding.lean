import Dez.Assembler.Passes

/-! The fields of an encoded word, and when they say what the source line says. -/
namespace Dez.Assembler

/-- Two words that share no bit add up. -/
theorem toNat_or_disjoint {a b : Word} {m k : ℕ} (ha : a.toNat = 2 ^ k * m) (hb : b.toNat < 2 ^ k) :
    (a ||| b).toNat = a.toNat + b.toNat := by
  rw [BitVec.toNat_or, ha, Nat.two_pow_add_eq_or_of_lt hb]

/-- A register number as the encoder sees it. -/
def regByte (r : Fin 16) : Byte := BitVec.ofNat 8 r

theorem regByte_toNat (r : Fin 16) : (regByte r).toNat = r.val := by
  have := r.isLt
  simp only [regByte, BitVec.toNat_ofNat]
  omega

theorem toNat_shifted (b : Byte) {k : ℕ} (hk : k ≤ 24) :
    (b.setWidth 32 <<< k : Word).toNat = 2 ^ k * b.toNat := by
  have hb := b.isLt
  have hpow : 2 ^ k ≤ 2 ^ 24 := Nat.pow_le_pow_right (by omega) hk
  have hle : b.toNat * 2 ^ k ≤ 255 * 2 ^ 24 := Nat.mul_le_mul (by omega) hpow
  have hmod : b.toNat % 2 ^ 32 = b.toNat := Nat.mod_eq_of_lt (by omega)
  rw [BitVec.toNat_shiftLeft, BitVec.toNat_setWidth, hmod, Nat.shiftLeft_eq,
    Nat.mod_eq_of_lt (by omega), Nat.mul_comm]

/-- A word put together from an opcode, three register numbers and twelve further bits. -/
def packed (type : DezInstructionType) (r1 r2 r3 : Fin 16) (low : Word) : Word :=
  parserEncodeSingle type ||| (regByte r1).setWidth 32 <<< 20 |||
    (regByte r2).setWidth 32 <<< 16 ||| (regByte r3).setWidth 32 <<< 12 ||| low

variable {type : DezInstructionType} {r1 r2 r3 : Fin 16} {low : Word}

theorem packed_toNat (h : low.toNat < 4096) : (packed type r1 r2 r3 low).toNat =
    2 ^ 24 * type.opcode.toNat + 2 ^ 20 * r1.val + 2 ^ 16 * r2.val + 2 ^ 12 * r3.val +
      low.toNat := by
  have hop : (parserEncodeSingle type).toNat = 2 ^ 24 * type.opcode.toNat := toNat_shifted _ le_rfl
  have h1 : ((regByte r1).setWidth 32 <<< 20 : Word).toNat = 2 ^ 20 * r1.val := by
    rw [toNat_shifted _ (by omega), regByte_toNat]
  have h2 : ((regByte r2).setWidth 32 <<< 16 : Word).toNat = 2 ^ 16 * r2.val := by
    rw [toNat_shifted _ (by omega), regByte_toNat]
  have h3 : ((regByte r3).setWidth 32 <<< 12 : Word).toNat = 2 ^ 12 * r3.val := by
    rw [toNat_shifted _ (by omega), regByte_toNat]
  have e1 := toNat_or_disjoint (b := (regByte r1).setWidth 32 <<< 20) (k := 24) hop (by omega)
  rw [hop, h1] at e1
  have e2 := toNat_or_disjoint (b := (regByte r2).setWidth 32 <<< 16) (k := 20)
    (m := 16 * type.opcode.toNat + r1.val) (by rw [e1]; omega) (by omega)
  rw [e1, h2] at e2
  have e3 := toNat_or_disjoint (b := (regByte r3).setWidth 32 <<< 12) (k := 16)
    (m := 256 * type.opcode.toNat + 16 * r1.val + r2.val) (by rw [e2]; omega) (by omega)
  rw [e2, h3] at e3
  have e4 := toNat_or_disjoint (b := low) (k := 12)
    (m := 4096 * type.opcode.toNat + 256 * r1.val + 16 * r2.val + r3.val) (by rw [e3]; omega)
    (by omega)
  rw [e3] at e4
  exact e4

theorem opcode_packed (h : low.toNat < 4096) :
    byteOf (packed type r1 r2 r3 low) 3 = type.opcode := by
  apply BitVec.eq_of_toNat_eq
  have := type.opcode.isLt
  rw [byteOf, BitVec.toNat_setWidth, BitVec.toNat_ushiftRight, Nat.shiftRight_eq_div_pow,
    packed_toNat h]
  omega

theorem reg1_packed (h : low.toNat < 4096) : reg1 (packed type r1 r2 r3 low) = r1 := by
  apply Fin.ext
  rw [reg1_val, packed_toNat h]
  omega

theorem reg2_packed (h : low.toNat < 4096) : reg2 (packed type r1 r2 r3 low) = r2 := by
  apply Fin.ext
  rw [reg2_val, packed_toNat h]
  omega

theorem reg3_packed (h : low.toNat < 4096) : reg3 (packed type r1 r2 r3 low) = r3 := by
  apply Fin.ext
  rw [reg3_val, packed_toNat h]
  omega

theorem decodeImmediate_packed (h : low.toNat < 4096) :
    decodeImmediate (packed type r1 r2 r3 low) = low := by
  apply BitVec.eq_of_toNat_eq
  rw [decodeImmediate, toNat_and_low _ 12 _ rfl, packed_toNat h]
  omega

theorem getLsbD_encodeJump (type : DezInstructionType) (reg : Byte) (address : Word) {j : ℕ}
    (hj : j < 20) :
    (parserEncodeJump type reg address).getLsbD j = (decide (j < 12) && address.getLsbD j) := by
  have hmask : (0x0FFF#32).getLsbD j = decide (j < 12) := by
    interval_cases j <;> rfl
  simp only [parserEncodeJump, parserEncodeSingle, BitVec.getLsbD_or, BitVec.getLsbD_shiftLeft,
    BitVec.getLsbD_and, hmask, hj, show j < 24 by omega]
  simp [Bool.and_comm]

/-- Numbers with the same low bits. -/
theorem toNat_mod_of_bits {v w : Word} {n : ℕ} (h : ∀ j < n, v.getLsbD j = w.getLsbD j) :
    v.toNat % 2 ^ n = w.toNat % 2 ^ n := by
  apply Nat.eq_of_testBit_eq
  intro j
  rw [Nat.testBit_mod_two_pow, Nat.testBit_mod_two_pow]
  by_cases hj : j < n
  · exact congrArg _ (h j hj)
  · simp [hj]

/-- Only the low bits of an address reach the word, whatever the register byte. -/
theorem decodeImmediate_encodeJump (type : DezInstructionType) (reg : Byte) (address : Word) :
    (decodeImmediate (parserEncodeJump type reg address)).toNat = address.toNat % 2 ^ 12 := by
  rw [decodeImmediate, toNat_and_low _ 12 _ rfl]
  apply toNat_mod_of_bits
  intro j hj
  rw [getLsbD_encodeJump _ _ _ (by omega), decide_eq_true hj, Bool.true_and]

theorem encodeJump_packed (type : DezInstructionType) (r : Fin 16) (a : Word) :
    parserEncodeJump type (regByte r) a = packed type r 0 0 (a &&& 0x0FFF#32) := by
  simp [parserEncodeJump, packed, regByte]

theorem encodeArithmetic_packed (type : DezInstructionType) (r1 r2 r3 : Fin 16) :
    parserEncodeArithmetic type (regByte r1) (regByte r2) (regByte r3) =
      packed type r1 r2 r3 0#32 := by
  simp [parserEncodeArithmetic, packed]

theorem encodeIndirect_packed (type : DezInstructionType) (r1 r2 : Fin 16) :
    parserEncodeIndirect type (regByte r1) (regByte r2) = packed type r1 r2 0 0#32 := by
  simp [parserEncodeIndirect, packed, regByte]

theorem encodeSingleRegister_packed (type : DezInstructionType) (r : Fin 16) :
    parserEncodeSingleRegister type (regByte r) = packed type r 0 0 0#32 := by
  simp [parserEncodeSingleRegister, packed, regByte]

theorem encodeSingle_packed (type : DezInstructionType) :
    parserEncodeSingle type = packed type 0 0 0 0#32 := by
  simp [packed, regByte]

theorem encodeImmediateArithmetic_packed (type : DezInstructionType) (r1 r2 : Fin 16) (v : Word) :
    encodeImmediateArithmetic type (regByte r1) (regByte r2) v =
      packed type r1 r2 0 (1#32 <<< 11 ||| (v &&& 0x07FF#32)) := by
  simp [encodeImmediateArithmetic, packed, regByte, BitVec.or_assoc]

theorem immediate_lt (v : Word) : (v &&& 0x0FFF#32).toNat < 4096 := decodeImmediate_lt v

theorem extImmediate_lt (v : Word) : (1#32 <<< 11 ||| (v &&& 0x07FF#32)).toNat < 4096 := by
  have hv : (v &&& 0x07FF#32).toNat < 2 ^ 11 := by
    rw [toNat_and_low _ 11 _ rfl]
    exact Nat.mod_lt _ (by decide)
  have h1 : (1#32 <<< 11 : Word).toNat = 2 ^ 11 * 1 := rfl
  rw [toNat_or_disjoint h1 hv, h1]
  omega

theorem isImmediateMode_eq (w : Word) : isImmediateMode w = w.getLsbD 11 := by
  have h := BitVec.and_twoPow w 11
  have htwo : (1 <<< 11 : Word) = BitVec.twoPow 32 11 := rfl
  rw [isImmediateMode, htwo, h]
  cases w.getLsbD 11 <;> decide

theorem isImmediateMode_packed : isImmediateMode (packed type r1 r2 r3 low) = low.getLsbD 11 := by
  rw [isImmediateMode_eq]
  simp [packed, parserEncodeSingle, -BitVec.getLsbD_eq_getElem]

/-- The operands of a mnemonic that are registers, given whether the one that may be either is an
immediate. -/
def registerOperands (type : DezInstructionType) (immediate : Bool) : List ℕ :=
  match type with
  | .mov | .load | .store | .sys | .push | .pop | .inc | .dec => [0]
  | .loadIndirect | .storeIndirect | .not => [0, 1]
  | .loadIndexed | .storeIndexed | .and | .or | .xor | .shl | .shr => [0, 1, 2]
  | .add | .sub | .mul | .div => if immediate then [0, 1] else [0, 1, 2]
  | .cmp => if immediate then [0] else [0, 1]
  | .jmp | .jz | .jnz | .jl | .jg | .jle | .jge | .call | .ret | .halt | .nop => []

/-- The machine takes the word's last operand as an immediate. -/
def readsImmediate (type : DezInstructionType) (w : Word) : Bool :=
  if type = .cmp then decodeReg2 w = 0#8 else isImmediateMode w

namespace ParsedInstruction

/-- The source gives an immediate where a register could stand. -/
def writesImmediate (inst : ParsedInstruction) : Bool :=
  (inst.operand (if inst.type = .cmp then 1 else 2)).type = .immediate

/-- Every operand in the place of a register is a register. -/
def RegistersInPlace (inst : ParsedInstruction) : Prop :=
  ∀ i ∈ registerOperands inst.type inst.writesImmediate, ∃ r, inst.operand i = .register r

end ParsedInstruction

/-- The register field of an operand. -/
def registerField (w : Word) : ℕ → Fin 16
  | 0 => reg1 w
  | 1 => reg2 w
  | _ => reg3 w

/-- The word has the opcode of the line, and each operand that the machine decodes as a register or
that the mnemonic wants to be one is the register its field names. -/
def SaysSource (inst : ParsedInstruction) (w : Word) : Prop :=
  byteOf w 3 = inst.type.opcode ∧
  ∀ i, i ∈ registerOperands inst.type (readsImmediate inst.type w) ∨
      i ∈ registerOperands inst.type inst.writesImmediate →
    inst.operand i = .register (registerField w i)

theorem registerOperands_lt (type : DezInstructionType) (immediate : Bool) :
    ∀ i ∈ registerOperands type immediate, i < 3 := by
  cases type <;> cases immediate <;> decide

variable {inst : ParsedInstruction} {stale : ℕ → Word} {table : SymbolTable} {w : Word}

theorem reg_of_register {i : ℕ} {r : Fin 16} (h : inst.operand i = .register r) :
    inst.reg i = regByte r := by
  simp [ParsedInstruction.reg, h, Operand.reg, regByte]

/-- A packed word says what the source says if its registers are the source's and the machine takes
no further operand for a register. -/
theorem saysSource_packed (hlow : low.toNat < 4096)
    (hw : w = packed inst.type r1 r2 r3 low)
    (h0 : 0 ∈ registerOperands inst.type inst.writesImmediate → inst.operand 0 = .register r1)
    (h1 : 1 ∈ registerOperands inst.type inst.writesImmediate → inst.operand 1 = .register r2)
    (h2 : 2 ∈ registerOperands inst.type inst.writesImmediate → inst.operand 2 = .register r3)
    (himm : registerOperands inst.type (readsImmediate inst.type w) ⊆
      registerOperands inst.type inst.writesImmediate) :
    SaysSource inst w := by
  refine ⟨by rw [hw, opcode_packed hlow], fun i hi => ?_⟩
  have hmem : i ∈ registerOperands inst.type inst.writesImmediate := by
    rcases hi with hi | hi
    · exact himm hi
    · exact hi
  have hlt := registerOperands_lt _ _ i hmem
  rw [hw]
  interval_cases i
  · exact (h0 hmem).trans (congrArg Operand.register (reg1_packed hlow).symm)
  · exact (h1 hmem).trans (congrArg Operand.register (reg2_packed hlow).symm)
  · exact (h2 hmem).trans (congrArg Operand.register (reg3_packed hlow).symm)

/-- Only the mnemonics with an immediate form depend on it. -/
theorem registerOperands_subset (type : DezInstructionType) {reads writes : Bool}
    (h : writes = true → type ∈ [.add, .sub, .mul, .div, .cmp] → reads = true) :
    registerOperands type reads ⊆ registerOperands type writes := by
  cases type <;> cases reads <;> cases writes <;> simp_all [registerOperands]

section shapes

variable (himm : inst.writesImmediate = true → inst.type ∈ [.add, .sub, .mul, .div, .cmp] →
  readsImmediate inst.type w = true)

include himm

theorem says_jump {v : Word} (hw : w = parserEncodeJump inst.type (inst.reg 0) v)
    (h0 : inst.operand 0 = .register r1)
    (h1 : 1 ∉ registerOperands inst.type inst.writesImmediate)
    (h2 : 2 ∉ registerOperands inst.type inst.writesImmediate) : SaysSource inst w := by
  rw [reg_of_register h0, encodeJump_packed] at hw
  exact saysSource_packed (immediate_lt v) hw (fun _ => h0) (fun h => absurd h h1)
    (fun h => absurd h h2) (registerOperands_subset _ himm)

theorem says_arithmetic (hw : w = parserEncodeArithmetic inst.type (inst.reg 0) (inst.reg 1)
      (inst.reg 2))
    (h0 : inst.operand 0 = .register r1) (h1 : inst.operand 1 = .register r2)
    (h2 : inst.operand 2 = .register r3) : SaysSource inst w := by
  rw [reg_of_register h0, reg_of_register h1, reg_of_register h2, encodeArithmetic_packed] at hw
  exact saysSource_packed (by decide) hw (fun _ => h0) (fun _ => h1) (fun _ => h2)
    (registerOperands_subset _ himm)

/-- The two-register forms end in a zero field. -/
theorem says_pair (low : Word) (hw : w = packed inst.type r1 r2 0 low) (hlow : low.toNat < 4096)
    (h0 : inst.operand 0 = .register r1) (h1 : inst.operand 1 = .register r2)
    (h2 : 2 ∉ registerOperands inst.type inst.writesImmediate) : SaysSource inst w :=
  saysSource_packed hlow hw (fun _ => h0) (fun _ => h1) (fun h => absurd h h2)
    (registerOperands_subset _ himm)

theorem says_single (hw : w = parserEncodeSingleRegister inst.type (inst.reg 0))
    (h0 : inst.operand 0 = .register r1)
    (h1 : 1 ∉ registerOperands inst.type inst.writesImmediate)
    (h2 : 2 ∉ registerOperands inst.type inst.writesImmediate) : SaysSource inst w := by
  rw [reg_of_register h0, encodeSingleRegister_packed] at hw
  exact saysSource_packed (by decide) hw (fun _ => h0) (fun h => absurd h h1)
    (fun h => absurd h h2) (registerOperands_subset _ himm)

end shapes

/-- The last operand of the arithmetic instructions decides their form. -/
theorem encode_arithmetic (ht : inst.type ∈ [.add, .sub, .mul, .div]) :
    (parserEncodeInstruction stale table inst).1 =
      if (inst.operand 2).type = .immediate then
        encodeImmediateArithmetic inst.type (inst.reg 0) (inst.reg 1)
          ((inst.operand 2).value (stale 2))
      else parserEncodeArithmetic inst.type (inst.reg 0) (inst.reg 1) (inst.reg 2) := by
  obtain ⟨type, operands⟩ := inst
  cases type with
  | add | sub | mul | div =>
    unfold parserEncodeInstruction
    dsimp only
    split <;> rfl
  | _ => simp at ht

theorem encode_cmp (ht : inst.type = .cmp) :
    (parserEncodeInstruction stale table inst).1 =
      if (inst.operand 1).type = .immediate then
        parserEncodeJump inst.type (inst.reg 0) ((inst.operand 1).value (stale 1))
      else parserEncodeArithmetic inst.type (inst.reg 0) (inst.reg 1) 0 := by
  obtain ⟨type, operands⟩ := inst
  obtain rfl : type = .cmp := ht
  unfold parserEncodeInstruction
  dsimp only
  split <;> rfl

theorem registerOperands_arithmetic (ht : type ∈ [.add, .sub, .mul, .div]) (immediate : Bool) :
    registerOperands type immediate = if immediate then [0, 1] else [0, 1, 2] := by
  cases type with
  | add | sub | mul | div => rfl
  | _ => simp at ht

theorem says_encode_arithmetic (ht : inst.type ∈ [.add, .sub, .mul, .div])
    (h : inst.RegistersInPlace) : SaysSource inst (parserEncodeInstruction stale table inst).1 := by
  have hcmp : inst.type ≠ .cmp := by
    rintro hc
    simp [hc] at ht
  unfold ParsedInstruction.RegistersInPlace at h
  rw [registerOperands_arithmetic ht] at h
  obtain ⟨r1, h0⟩ := h 0 (by split <;> simp)
  obtain ⟨r2, h1⟩ := h 1 (by split <;> simp)
  rw [encode_arithmetic ht]
  by_cases hi : (inst.operand 2).type = .immediate
  · have hwrites : inst.writesImmediate = true := by
      simp [ParsedInstruction.writesImmediate, hcmp, hi]
    rw [if_pos hi, reg_of_register h0, reg_of_register h1, encodeImmediateArithmetic_packed]
    refine says_pair (fun _ _ => ?_) _ rfl (extImmediate_lt _) h0 h1 ?_
    · rw [readsImmediate, if_neg hcmp, isImmediateMode_packed]
      simp [-BitVec.getLsbD_eq_getElem]
    · simp [registerOperands_arithmetic ht, hwrites]
  · have hwrites : inst.writesImmediate = false := by
      simp [ParsedInstruction.writesImmediate, hcmp, hi]
    obtain ⟨r3, h2⟩ := h 2 (by simp [hwrites])
    rw [if_neg hi]
    exact says_arithmetic (by simp [hwrites]) rfl h0 h1 h2

theorem says_encode_cmp (ht : inst.type = .cmp) (h : inst.RegistersInPlace) :
    SaysSource inst (parserEncodeInstruction stale table inst).1 := by
  have hops : ∀ immediate, registerOperands inst.type immediate =
      if immediate then [0] else [0, 1] := fun immediate => by rw [ht]; rfl
  unfold ParsedInstruction.RegistersInPlace at h
  rw [hops] at h
  obtain ⟨r1, h0⟩ := h 0 (by split <;> simp)
  rw [encode_cmp ht]
  by_cases hi : (inst.operand 1).type = .immediate
  · have hwrites : inst.writesImmediate = true := by
      simp [ParsedInstruction.writesImmediate, ht, hi]
    rw [if_pos hi]
    refine says_jump (fun _ _ => ?_) rfl h0 (by simp [hops, hwrites]) (by simp [hops, hwrites])
    rw [reg_of_register h0, encodeJump_packed, readsImmediate, if_pos ht, decide_eq_true_eq]
    have hr : reg2 (packed inst.type r1 0 0 ((inst.operand 1).value (stale 1) &&& 0x0FFF#32)) = 0 :=
      reg2_packed (immediate_lt _)
    have hval := congrArg Fin.val hr
    exact BitVec.eq_of_toNat_eq hval
  · have hwrites : inst.writesImmediate = false := by
      simp [ParsedInstruction.writesImmediate, ht, hi]
    obtain ⟨r2, h1⟩ := h 1 (by simp [hwrites])
    rw [if_neg hi]
    refine says_pair (by simp [hwrites]) 0#32 ?_ (by decide) h0 h1 (by simp [hops, hwrites])
    rw [← encodeArithmetic_packed, ← reg_of_register h0, ← reg_of_register h1]
    rfl

/-- The jumps and `CALL`. -/
def jumpTypes : List DezInstructionType := [.jmp, .jz, .jnz, .jl, .jg, .jle, .jge, .call]

theorem encode_jump (ht : inst.type ∈ jumpTypes) :
    (parserEncodeInstruction stale table inst).1 =
      parserEncodeJump inst.type 0 (resolve (stale 0) table (inst.operand 0)).1 := by
  obtain ⟨type, operands⟩ := inst
  cases type with
  | jmp | jz | jnz | jl | jg | jle | jge | call => rfl
  | _ => simp [jumpTypes] at ht

theorem encodeJump_zero (type : DezInstructionType) (a : Word) :
    parserEncodeJump type 0 a = packed type 0 0 0 (a &&& 0x0FFF#32) := encodeJump_packed type 0 a

/-- Instructions without a register operand. -/
theorem says_none {v : Word} (hw : w = packed inst.type 0 0 0 v) (hv : v.toNat < 4096)
    (hnone : ∀ immediate, registerOperands inst.type immediate = []) : SaysSource inst w :=
  saysSource_packed hv hw (by simp [hnone]) (by simp [hnone]) (by simp [hnone]) (by simp [hnone])

theorem encode_says (h : inst.RegistersInPlace) :
    SaysSource inst (parserEncodeInstruction stale table inst).1 := by
  obtain ⟨type, operands⟩ := inst
  cases type with
  | mov =>
    obtain ⟨r, h0⟩ := h 0 (by simp [registerOperands])
    have hw : ∃ v, (parserEncodeInstruction stale table ⟨.mov, operands⟩).1 =
        parserEncodeJump .mov ((⟨.mov, operands⟩ : ParsedInstruction).reg 0) v := by
      unfold parserEncodeInstruction
      dsimp only
      split <;> exact ⟨_, rfl⟩
    obtain ⟨v, hw⟩ := hw
    exact says_jump (by simp) hw h0 (by simp [registerOperands]) (by simp [registerOperands])
  | load | store | sys =>
    obtain ⟨r, h0⟩ := h 0 (by simp [registerOperands])
    exact says_jump (by simp) rfl h0 (by simp [registerOperands]) (by simp [registerOperands])
  | push | pop | inc | dec =>
    obtain ⟨r, h0⟩ := h 0 (by simp [registerOperands])
    exact says_single (by simp) rfl h0 (by simp [registerOperands]) (by simp [registerOperands])
  | loadIndexed | storeIndexed | and | or | xor | shl | shr =>
    obtain ⟨r1, h0⟩ := h 0 (by simp [registerOperands])
    obtain ⟨r2, h1⟩ := h 1 (by simp [registerOperands])
    obtain ⟨r3, h2⟩ := h 2 (by simp [registerOperands])
    exact says_arithmetic (by simp) rfl h0 h1 h2
  | loadIndirect | storeIndirect =>
    obtain ⟨r1, h0⟩ := h 0 (by simp [registerOperands])
    obtain ⟨r2, h1⟩ := h 1 (by simp [registerOperands])
    refine says_pair (by simp) 0#32 ?_ (by decide) h0 h1 (by simp [registerOperands])
    rw [← encodeIndirect_packed, ← reg_of_register h0, ← reg_of_register h1]
    rfl
  | not =>
    obtain ⟨r1, h0⟩ := h 0 (by simp [registerOperands])
    obtain ⟨r2, h1⟩ := h 1 (by simp [registerOperands])
    refine says_pair (by simp) 0#32 ?_ (by decide) h0 h1 (by simp [registerOperands])
    rw [← encodeArithmetic_packed, ← reg_of_register h0, ← reg_of_register h1]
    rfl
  | cmp => exact says_encode_cmp rfl h
  | add | sub | mul | div => exact says_encode_arithmetic (by simp) h
  | jmp | jz | jnz | jl | jg | jle | jge | call =>
    rw [encode_jump (by simp [jumpTypes]), encodeJump_zero]
    exact says_none rfl (immediate_lt _) fun _ => rfl
  | ret =>
    exact says_none (v := 0#32) (encodeSingle_packed .ret) (by decide) fun _ => rfl
  | halt =>
    exact says_none (v := 0#32) (encodeSingle_packed .halt) (by decide) fun _ => rfl
  | nop =>
    exact says_none (v := 0#32) (encodeSingle_packed .nop) (by decide) fun _ => rfl

/-- The words with an address or a value behind one register. -/
theorem encode_value (ht : inst.type ∈ [.mov, .load, .store, .sys]) {r : Fin 16}
    (h0 : inst.operand 0 = .register r) :
    ∃ v, (parserEncodeInstruction stale table inst).1 = packed inst.type r 0 0 (v &&& 0x0FFF#32) ∧
      (inst.type = .sys → v = (inst.operand 1).value (stale 1)) := by
  have hreg := reg_of_register h0
  obtain ⟨type, operands⟩ := inst
  have hjump : ∃ v, (parserEncodeInstruction stale table ⟨type, operands⟩).1 =
      parserEncodeJump type (regByte r) v ∧
      (type = .sys → v = ((⟨type, operands⟩ : ParsedInstruction).operand 1).value (stale 1)) := by
    rw [← hreg]
    cases type with
    | mov =>
      unfold parserEncodeInstruction
      dsimp only
      split <;> exact ⟨_, rfl, nofun⟩
    | load | store => exact ⟨_, rfl, nofun⟩
    | sys => exact ⟨_, rfl, fun _ => rfl⟩
    | _ => simp at ht
  obtain ⟨v, hword, hv⟩ := hjump
  exact ⟨v, hword.trans (encodeJump_packed ..), hv⟩

theorem encode_bare (ht : inst.type ∈ [.halt, .nop, .ret]) :
    (parserEncodeInstruction stale table inst).1 = packed inst.type 0 0 0 0#32 := by
  rw [← encodeSingle_packed]
  obtain ⟨type, operands⟩ := inst
  cases type with
  | halt | nop | ret => rfl
  | _ => simp at ht

theorem encode_single (ht : inst.type ∈ [.inc, .dec, .push, .pop]) {r : Fin 16}
    (h0 : inst.operand 0 = .register r) :
    (parserEncodeInstruction stale table inst).1 = packed inst.type r 0 0 0#32 := by
  rw [← encodeSingleRegister_packed, ← reg_of_register h0]
  obtain ⟨type, operands⟩ := inst
  cases type with
  | inc | dec | push | pop => rfl
  | _ => simp at ht

theorem encode_two (ht : inst.type ∈ [.not, .loadIndirect, .storeIndirect]) {r1 r2 : Fin 16}
    (h0 : inst.operand 0 = .register r1) (h1 : inst.operand 1 = .register r2) :
    (parserEncodeInstruction stale table inst).1 = packed inst.type r1 r2 0 0#32 := by
  rw [← encodeIndirect_packed, ← reg_of_register h0, ← reg_of_register h1]
  obtain ⟨type, operands⟩ := inst
  cases type with
  | loadIndirect | storeIndirect => rfl
  | not =>
    have hzero : ∀ a b : Byte, parserEncodeArithmetic .not a b 0 = parserEncodeIndirect .not a b :=
      fun a b => by simp [parserEncodeArithmetic, parserEncodeIndirect]
    exact hzero _ _
  | _ => simp at ht

theorem encode_three
    (ht : inst.type ∈ [.and, .or, .xor, .shl, .shr, .loadIndexed, .storeIndexed])
    {r1 r2 r3 : Fin 16} (h0 : inst.operand 0 = .register r1) (h1 : inst.operand 1 = .register r2)
    (h2 : inst.operand 2 = .register r3) :
    (parserEncodeInstruction stale table inst).1 = packed inst.type r1 r2 r3 0#32 := by
  rw [← encodeArithmetic_packed, ← reg_of_register h0, ← reg_of_register h1, ← reg_of_register h2]
  obtain ⟨type, operands⟩ := inst
  cases type with
  | and | or | xor | shl | shr | loadIndexed | storeIndexed => rfl
  | _ => simp at ht

/-- The operand whose member `value` or `address` the encoder reads whatever its type is. -/
def wholeOperand : DezInstructionType → Option ℕ
  | .mov | .load | .store | .sys => some 1
  | .jmp | .jz | .jnz | .jl | .jg | .jle | .jge | .call => some 0
  | _ => none

/-- Unless it is a label or a string, such an operand goes into the word's low bits as it is. -/
theorem encode_whole {i : ℕ} (hi : wholeOperand inst.type = some i)
    (hplain : (inst.operand i).type ≠ .label ∧ (inst.operand i).type ≠ .string) :
    ∃ reg, ∀ stale table, (parserEncodeInstruction stale table inst).1 =
      parserEncodeJump inst.type reg ((inst.operand i).value (stale i)) := by
  have hresolve : ∀ (operand : Operand) stale table, operand.type ≠ .label →
      (resolve stale table operand).1 = operand.value stale := by
    intro operand stale table hno
    cases operand with
    | label name => exact absurd rfl hno
    | _ => rfl
  obtain ⟨type, operands⟩ := inst
  cases type with
  | mov =>
    cases hi
    refine ⟨(operands.getD 0 (.immediate 0)).reg, fun stale table => ?_⟩
    rw [← hresolve _ _ table hplain.1]
    unfold parserEncodeInstruction
    dsimp only
    split
    · rename_i text hop
      exact absurd (congrArg Operand.type hop) hplain.2
    · rfl
  | load =>
    cases hi
    refine ⟨(operands.getD 0 (.immediate 0)).reg, fun stale table => ?_⟩
    rw [← hresolve _ _ table hplain.1]
    rfl
  | store | sys =>
    cases hi
    exact ⟨(operands.getD 0 (.immediate 0)).reg, fun stale table => rfl⟩
  | jmp | jz | jnz | jl | jg | jle | jge | call =>
    cases hi
    refine ⟨0, fun stale table => ?_⟩
    rw [← hresolve _ _ table hplain.1]
    rfl
  | _ => cases hi

/-- A word says what its line says exactly if every operand in a register's place is a register. -/
theorem encode_says_iff : SaysSource inst (parserEncodeInstruction stale table inst).1 ↔
    inst.RegistersInPlace :=
  ⟨fun h i hi => ⟨_, h.2 i (.inr hi)⟩, encode_says⟩

/-- Each word of an accepted text has its line's opcode and registers if and only if the line's
operands in register positions are registers: the encoder takes any other operand's first byte. -/
theorem word_says_source_iff {capacity : ℕ} (stale : ℕ → Word → ℕ → Word) (input : List Byte)
    (table : SymbolTable) (output : CArray Word capacity)
    (h : (parserParse stale (parserInit input table output)).1 = true) (i : ℕ)
    (inst : ParsedInstruction) (hi : (sourceInstructions input)[i]? = some inst) :
    ∃ hc : i < capacity,
      (SaysSource inst ((parserParse stale (parserInit input table output)).2.output ⟨i, hc⟩) ↔
        inst.RegistersInPlace) := by
  obtain ⟨hc, hword⟩ := parserParse_word h hi
  refine ⟨hc, ?_⟩
  rw [hword]
  exact encode_says_iff

theorem word_says_source_iff_mov : ∃ hc : 0 < 1,
    (SaysSource ⟨.mov, [.register 1, .immediate 5]⟩
        ((parserParse (fun _ _ _ => 0) (parserInit (bytes "MOV R1, 5") symbolTableInit
          (fun _ => 0))).2.output ⟨0, hc⟩) ↔
      (ParsedInstruction.mk .mov [.register 1, .immediate 5]).RegistersInPlace) :=
  word_says_source_iff (fun _ _ _ => 0) (bytes "MOV R1, 5") symbolTableInit (fun _ => 0)
    (by decide +kernel) 0 _ (by decide +kernel)

/-- `MOV R16, 5` is accepted, and the misspelt register spills into the opcode. -/
theorem misspelt_register_accepted :
    ¬ ∀ (capacity : ℕ) stale input table (output : CArray Word capacity),
      (parserParse stale (parserInit input table output)).1 = true →
      ∀ i inst, (sourceInstructions input)[i]? = some inst → ∀ hc : i < capacity,
        SaysSource inst ((parserParse stale (parserInit input table output)).2.output ⟨i, hc⟩) := by
  intro h
  have hsays := h 1 (fun _ _ _ => 0) (bytes "MOV R16, 5") symbolTableInit (fun _ => 0)
    (by decide) 0 ⟨.mov, [.label (.ofBytes 63 (bytes "R16")), .immediate 5]⟩
    (by decide +kernel) (by decide)
  exact absurd hsays.1 (by decide)

end Dez.Assembler
