import Dez.Instruction
import Dez.Assembler.SymbolTable

/-! Operands, parsed instructions, and their encoding as words. -/
namespace Dez.Assembler

/-- `dez_operand_type_t` -/
inductive DezOperandType
  | register | immediate | memory | label | string
  deriving DecidableEq, Repr

/-- `dez_operand_t`: the tag, and the member of the union that was written last. -/
inductive Operand
  | register (n : Fin 16)
  | immediate (value : Word)
  | memory (address : Word)
  | memoryLabel (name : CString 63)
  | label (name : CString 63)
  | string (text : CString 255)
  deriving DecidableEq

namespace Operand

def type : Operand → DezOperandType
  | register _ => .register
  | immediate _ => .immediate
  | memory _ => .memory
  | memoryLabel _ => .memory
  | label _ => .label
  | string _ => .string

/-- The first four bytes of a string in memory, padded with zeros as `strncpy` does. -/
def front (chars : List Byte) : Word :=
  wordOfBytes (chars.getD 0 0) (chars.getD 1 0) (chars.getD 2 0) (chars.getD 3 0)

/-- The members `value` and `address`, whatever was written: the union's first four bytes. A
register number leaves the upper three as they were. -/
def value (stale : Word) : Operand → Word
  | register n => putByte stale 0 (BitVec.ofNat 8 n)
  | immediate value => value
  | memory address => address
  | memoryLabel name => front name.chars
  | label name => front name.chars
  | string text => front text.chars

/-- The member `reg`, whatever was written: the union's first byte. -/
def reg : Operand → Byte
  | register n => BitVec.ofNat 8 n
  | immediate value => byteOf value 0
  | memory address => byteOf address 0
  | memoryLabel name => name.chars.getD 0 0
  | label name => name.chars.getD 0 0
  | string text => text.chars.getD 0 0

end Operand

/-- `parsed_instruction_t`; a mnemonic fixes how many operands there are. -/
structure ParsedInstruction where
  type : DezInstructionType
  operands : List Operand
  deriving DecidableEq

namespace ParsedInstruction

/-- `inst->operands[i]`, for the operands the mnemonic has. -/
def operand (inst : ParsedInstruction) (i : ℕ) : Operand := inst.operands.getD i (.immediate 0)

def reg (inst : ParsedInstruction) (i : ℕ) : Byte := (inst.operand i).reg

end ParsedInstruction

/-- The opcode field, `type << 24`. -/
def parserEncodeSingle (type : DezInstructionType) : Word := type.opcode.setWidth 32 <<< 24

def parserEncodeSingleRegister (type : DezInstructionType) (reg : Byte) : Word :=
  parserEncodeSingle type ||| reg.setWidth 32 <<< 20

/-- The body of `parser_encode_jump`, `_mov`, `_load`, `_store` and `_sys`. -/
def parserEncodeJump (type : DezInstructionType) (reg : Byte) (address : Word) : Word :=
  parserEncodeSingle type ||| reg.setWidth 32 <<< 20 ||| (address &&& 0x0FFF#32)

def parserEncodeMov := parserEncodeJump .mov

def parserEncodeLoad := parserEncodeJump .load

def parserEncodeStore := parserEncodeJump .store

def parserEncodeSys := parserEncodeJump .sys

def parserEncodeArithmetic (type : DezInstructionType) (reg1 reg2 reg3 : Byte) : Word :=
  parserEncodeSingle type ||| reg1.setWidth 32 <<< 20 ||| reg2.setWidth 32 <<< 16 |||
    reg3.setWidth 32 <<< 12

def parserEncodeLoadIndexed := parserEncodeArithmetic .loadIndexed

def parserEncodeStoreIndexed := parserEncodeArithmetic .storeIndexed

/-- The body of `parser_encode_load_indirect` and `_store_indirect`. -/
def parserEncodeIndirect (type : DezInstructionType) (reg addrReg : Byte) : Word :=
  parserEncodeSingle type ||| reg.setWidth 32 <<< 20 ||| addrReg.setWidth 32 <<< 16

def parserEncodeLoadIndirect := parserEncodeIndirect .loadIndirect

def parserEncodeStoreIndirect := parserEncodeIndirect .storeIndirect

/-- The immediate form of `ADD`, `SUB`, `MUL` and `DIV`, flagged by bit 11. -/
def encodeImmediateArithmetic (type : DezInstructionType) (reg1 reg2 : Byte) (value : Word) :
    Word :=
  parserEncodeSingle type ||| reg1.setWidth 32 <<< 20 ||| reg2.setWidth 32 <<< 16 |||
    1#32 <<< 11 ||| (value &&& 0x07FF#32)

/-- The key a string literal gets in the symbol table, `"__str_%s"` cut to 63 characters. -/
def stringKey (text : CString 255) : CString 63 := .ofBytes 63 (bytes "__str_" ++ text.chars)

/-- `sym ? sym->address : 0` after a search, with the table whose cache it updated. -/
def addressOf (table : SymbolTable) (name : CString 63) : Word × SymbolTable :=
  let (symbol, table) := symbolTableFind table name.chars
  match symbol with
  | some symbol => (symbol.address, table)
  | none => (0, table)

/-- The address a `MOV` of a string literal gets. -/
def stringAddress (table : SymbolTable) (text : CString 255) : Word × SymbolTable × List Message :=
  let symbolName := stringKey text
  let (_, table, out) := symbolTableDefineString table symbolName.chars text.chars 0
  let (stringAddr, table) := addressOf table symbolName
  (stringAddr, table, out)

/-- The member `value` (or `address`), a label operand being resolved instead. -/
def resolve (stale : Word) (table : SymbolTable) (operand : Operand) : Word × SymbolTable :=
  match operand with
  | .label name => addressOf table name
  | operand => (operand.value stale, table)

/-- `parser_encode_instruction`; `stale i` is what the stack held in the first four bytes of the
union of operand `i` before parsing. -/
def parserEncodeInstruction (stale : ℕ → Word) (table : SymbolTable) (inst : ParsedInstruction) :
    Word × SymbolTable × List Message :=
  match inst.type with
  | .mov =>
    match inst.operand 1 with
    | .string text =>
      let (stringAddr, table, out) := stringAddress table text
      (parserEncodeMov (inst.reg 0) stringAddr, table, out)
    | operand =>
      let (value, table) := resolve (stale 1) table operand
      (parserEncodeMov (inst.reg 0) value, table, [])
  | .load =>
    let (address, table) := resolve (stale 1) table (inst.operand 1)
    (parserEncodeLoad (inst.reg 0) address, table, [])
  | .store => (parserEncodeStore (inst.reg 0) ((inst.operand 1).value (stale 1)), table, [])
  | .loadIndirect => (parserEncodeLoadIndirect (inst.reg 0) (inst.reg 1), table, [])
  | .storeIndirect => (parserEncodeStoreIndirect (inst.reg 0) (inst.reg 1), table, [])
  | .loadIndexed => (parserEncodeLoadIndexed (inst.reg 0) (inst.reg 1) (inst.reg 2), table, [])
  | .storeIndexed => (parserEncodeStoreIndexed (inst.reg 0) (inst.reg 1) (inst.reg 2), table, [])
  | .add | .sub | .mul | .div =>
    if (inst.operand 2).type = .immediate then
      (encodeImmediateArithmetic inst.type (inst.reg 0) (inst.reg 1)
        ((inst.operand 2).value (stale 2)), table, [])
    else (parserEncodeArithmetic inst.type (inst.reg 0) (inst.reg 1) (inst.reg 2), table, [])
  | .jmp | .jz | .jnz | .jl | .jg | .jle | .jge | .call =>
    let (target, table) := resolve (stale 0) table (inst.operand 0)
    (parserEncodeJump inst.type 0 target, table, [])
  | .cmp =>
    if (inst.operand 1).type = .immediate then
      (parserEncodeJump .cmp (inst.reg 0) ((inst.operand 1).value (stale 1)), table, [])
    else (parserEncodeArithmetic inst.type (inst.reg 0) (inst.reg 1) 0, table, [])
  | .sys => (parserEncodeSys (inst.reg 0) ((inst.operand 1).value (stale 1)), table, [])
  | .push | .pop | .inc | .dec => (parserEncodeSingleRegister inst.type (inst.reg 0), table, [])
  | .and | .or | .xor | .shl | .shr =>
    (parserEncodeArithmetic inst.type (inst.reg 0) (inst.reg 1) (inst.reg 2), table, [])
  | .not => (parserEncodeArithmetic inst.type (inst.reg 0) (inst.reg 1) 0, table, [])
  | .ret | .halt | .nop => (parserEncodeSingle inst.type, table, [])

end Dez.Assembler
