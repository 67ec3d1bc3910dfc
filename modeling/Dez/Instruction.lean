import Dez.Words

/-! Instruction words: the opcodes, and the decoding macros of the common header. -/
namespace Dez

/-- The instructions of the machine (`dez_instruction_type_t`). -/
inductive DezInstructionType
  | mov | add | sub | mul | div | load | store
  | jmp | jz | jnz | jl | jg | jle | jge
  | push | pop | sys | cmp | call | ret
  | and | or | xor | not | shl | shr | inc | dec
  | loadIndirect | storeIndirect | loadIndexed | storeIndexed
  | halt | nop
  deriving DecidableEq, Repr

namespace DezInstructionType

/-- The explicit opcode values of the enumeration. -/
def opcode : DezInstructionType → Byte
  | mov => 0x10 | add => 0x04 | sub => 0x05 | mul => 0x06 | div => 0x07
  | load => 0x01 | store => 0x03
  | jmp => 0x08 | jz => 0x09 | jnz => 0x0A | jl => 0x19 | jg => 0x1A | jle => 0x1B | jge => 0x1C
  | push => 0x0B | pop => 0x0C | sys => 0x0D | cmp => 0x0E | call => 0x0F | ret => 0x11
  | and => 0x13 | or => 0x14 | xor => 0x15 | not => 0x16 | shl => 0x17 | shr => 0x18
  | inc => 0x1D | dec => 0x1E
  | loadIndirect => 0x1F | storeIndirect => 0x20 | loadIndexed => 0x21 | storeIndexed => 0x22
  | halt => 0x00 | nop => 0x12

/-- Every instruction, in the order of the dispatch table. -/
def all : List DezInstructionType :=
  [mov, load, add, store, sub, mul, div, jmp, jz, jnz, jl, jg, jle, jge, push, pop, cmp, sys,
    and, or, xor, not, shl, shr, inc, dec, loadIndirect, storeIndirect, loadIndexed,
    storeIndexed, call, ret, halt, nop]

/-- The instruction an opcode byte selects, if any. -/
def ofOpcode (b : Byte) : Option DezInstructionType := all.find? fun t => t.opcode = b

theorem ofOpcode_opcode (t : DezInstructionType) : ofOpcode t.opcode = some t := by
  cases t <;> rfl

end DezInstructionType

/-- `DEZ_DECODE_OPCODE` -/
def decodeOpcode (inst : Word) : Byte := ((inst >>> 24) &&& 0xFF).setWidth 8

/-- `DEZ_DECODE_REG1`, kept in a `uint8_t` -/
def decodeReg1 (inst : Word) : Byte := ((inst >>> 20) &&& 0xF).setWidth 8

/-- `DEZ_DECODE_REG2`, kept in a `uint8_t` -/
def decodeReg2 (inst : Word) : Byte := ((inst >>> 16) &&& 0xF).setWidth 8

/-- `DEZ_DECODE_REG3`, kept in a `uint8_t` -/
def decodeReg3 (inst : Word) : Byte := ((inst >>> 12) &&& 0xF).setWidth 8

/-- `DEZ_DECODE_IMMEDIATE` -/
def decodeImmediate (inst : Word) : Word := inst &&& 0x0FFF

/-- `DEZ_DECODE_EXT_IMMEDIATE` -/
def decodeExtImmediate (inst : Word) : Word := inst &&& 0x07FF

/-- `DEZ_IS_IMMEDIATE_MODE` -/
def isImmediateMode (inst : Word) : Bool := (inst &&& (1 <<< 11)) != 0

theorem toNat_and_low (w : Word) (n : ℕ) (m : Word) (h : m.toNat = 2 ^ n - 1) :
    (w &&& m).toNat = w.toNat % 2 ^ n := by
  rw [BitVec.toNat_and, h, Nat.and_two_pow_sub_one_eq_mod]

/-- A masked nibble fits its byte, so keeping it in a `uint8_t` loses nothing. -/
theorem toNat_nibble (w : Word) (k : ℕ) :
    (((w >>> k) &&& 0xF).setWidth 8 : Byte).toNat = w.toNat / 2 ^ k % 16 := by
  rw [BitVec.toNat_setWidth, toNat_and_low _ 4 _ rfl, BitVec.toNat_ushiftRight,
    Nat.shiftRight_eq_div_pow]
  omega

theorem decodeReg1_lt (inst : Word) : (decodeReg1 inst).toNat < 16 := by
  rw [decodeReg1, toNat_nibble]; omega

theorem decodeReg2_lt (inst : Word) : (decodeReg2 inst).toNat < 16 := by
  rw [decodeReg2, toNat_nibble]; omega

theorem decodeReg3_lt (inst : Word) : (decodeReg3 inst).toNat < 16 := by
  rw [decodeReg3, toNat_nibble]; omega

theorem decodeImmediate_lt (inst : Word) : (decodeImmediate inst).toNat < 4096 := by
  rw [decodeImmediate, toNat_and_low _ 12 _ rfl]; omega

/-- The register a field names, as an index that is in range by its type. -/
def reg1 (inst : Word) : Fin 16 := ⟨(decodeReg1 inst).toNat, decodeReg1_lt inst⟩

def reg2 (inst : Word) : Fin 16 := ⟨(decodeReg2 inst).toNat, decodeReg2_lt inst⟩

def reg3 (inst : Word) : Fin 16 := ⟨(decodeReg3 inst).toNat, decodeReg3_lt inst⟩

theorem reg1_val (inst : Word) : (reg1 inst).val = inst.toNat / 2 ^ 20 % 16 := toNat_nibble inst 20

theorem reg2_val (inst : Word) : (reg2 inst).val = inst.toNat / 2 ^ 16 % 16 := toNat_nibble inst 16

theorem reg3_val (inst : Word) : (reg3 inst).val = inst.toNat / 2 ^ 12 % 16 := toNat_nibble inst 12

end Dez
