import Dez.Instruction
import Dez.Machine.Memory

/-! The machine state and the handlers of `dez_instruction_table.c`. -/
namespace Dez.Machine

/-- `dez_vm_state_t` -/
inductive DezVmState
  | running | halted | error | debug
  deriving DecidableEq, Repr

def flagZero : Word := 0x01
def flagLess : Word := 0x02
def flagGreater : Word := 0x04
def flagEqual : Word := 0x08

def stackStart : Word := 0x0800
def stackEnd : Word := 0x0FFF

/-- `cpu_t` -/
structure Cpu where
  regs : CArray Word 16
  pc : Word
  sp : Word
  flags : Word
  state : DezVmState

/-- `dez_vm_t`, with the process's output stream that every `printf` appends to. -/
structure DezVm where
  cpu : Cpu
  memory : DezMemory
  programSize : Word
  debugMode : Bool
  stdout : List Output

/-- What the C standard leaves open and the host decides: the value of an undefined shift or
division, and what a short `fread` leaves in its target. -/
structure Host where
  div : Word → Word
  shl : Word → Word → Word
  shr : Word → Word → Word
  shortRead : Word → List Byte → Word

/-- `a / b` on `uint32_t` -/
def Host.quotient (host : Host) (a b : Word) : Word := if b = 0#32 then host.div a else a / b

/-- `a << b` on `uint32_t` -/
def Host.shiftLeft (host : Host) (a b : Word) : Word :=
  if b.toNat < 32 then a <<< b.toNat else host.shl a b

/-- `a >> b` on `uint32_t` -/
def Host.shiftRight (host : Host) (a b : Word) : Word :=
  if b.toNat < 32 then a >>> b.toNat else host.shr a b

namespace DezVm

def print (vm : DezVm) (out : List Output) : DezVm := { vm with stdout := vm.stdout ++ out }

def setState (vm : DezVm) (state : DezVmState) : DezVm :=
  { vm with cpu := { vm.cpu with state := state } }

/-- The common tail of every check: print a message and set `DEZ_VM_STATE_ERROR`. -/
def fail (vm : DezVm) (out : Output) : DezVm := (vm.print [out]).setState .error

def setPc (vm : DezVm) (pc : Word) : DezVm := { vm with cpu := { vm.cpu with pc := pc } }

def setSp (vm : DezVm) (sp : Word) : DezVm := { vm with cpu := { vm.cpu with sp := sp } }

def setFlags (vm : DezVm) (flags : Word) : DezVm :=
  { vm with cpu := { vm.cpu with flags := flags } }

def setMemory (vm : DezVm) (memory : DezMemory) : DezVm := { vm with memory := memory }

/-- `vm->cpu.regs[reg]` -/
def readReg (vm : DezVm) (reg : Byte) : Except Fault Word := vm.cpu.regs.read reg.toNat

/-- `vm->cpu.regs[reg] = value` -/
def writeReg (vm : DezVm) (reg : Byte) (value : Word) : Except Fault DezVm := do
  let regs ← vm.cpu.regs.write reg.toNat value
  return { vm with cpu := { vm.cpu with regs := regs } }

end DezVm

def dezVmInit : DezVm where
  cpu := { regs := fun _ => 0, pc := 0, sp := 4096#32 - 1#32, flags := 0, state := .running }
  memory := memoryInit
  programSize := 0
  debugMode := false
  stdout := []

/-- `DEZ_VALIDATE_REGISTER`; `rest` is the handler's code after the macro. -/
def validateRegister (vm : DezVm) (reg : Byte) (name : String) (rest : Except Fault DezVm) :
    Except Fault DezVm :=
  if reg.toNat > 15 then
    return vm.fail (.printf ("Error: Invalid register R%d in " ++ name ++ " instruction\n")
      [reg.setWidth 32])
  else rest

/-- `DEZ_VALIDATE_MEMORY_ADDRESS` -/
def validateMemoryAddress (vm : DezVm) (addr : Word) (name : String) (rest : Except Fault DezVm) :
    Except Fault DezVm :=
  if addr.toNat ≥ 4096 then
    return vm.fail (.printf
      ("Error: Memory address 0x%04X out of bounds in " ++ name ++ " instruction\n") [addr])
  else rest

/-- `DEZ_VALIDATE_STACK_OVERFLOW` -/
def validateStackOverflow (vm : DezVm) (name : String) (rest : Except Fault DezVm) :
    Except Fault DezVm :=
  if vm.cpu.sp.toNat < stackStart.toNat then
    return vm.fail (.printf ("Error: Stack overflow in " ++ name ++ " instruction\n") [])
  else rest

/-- `DEZ_VALIDATE_STACK_UNDERFLOW` -/
def validateStackUnderflow (vm : DezVm) (name : String) (rest : Except Fault DezVm) :
    Except Fault DezVm :=
  if vm.cpu.sp.toNat ≥ stackEnd.toNat then
    return vm.fail (.printf ("Error: Stack underflow in " ++ name ++ " instruction\n") [])
  else rest

def executeMov (vm : DezVm) (instruction : Word) : Except Fault DezVm :=
  let reg := decodeReg1 instruction
  let immediate := decodeImmediate instruction
  validateRegister vm reg "MOV" <|
  vm.writeReg reg immediate

def executeLoad (vm : DezVm) (instruction : Word) : Except Fault DezVm :=
  let reg := decodeReg1 instruction
  let address := decodeImmediate instruction
  validateRegister vm reg "LOAD" <|
  validateMemoryAddress vm address "LOAD" do
    let (value, memory, out) ← memoryReadWord vm.memory address
    ((vm.setMemory memory).print out).writeReg reg value

/-- `STORE` assigns to the array itself, past `memory_write_word`. -/
def executeStore (vm : DezVm) (instruction : Word) : Except Fault DezVm :=
  let reg := decodeReg1 instruction
  let address := decodeImmediate instruction
  validateRegister vm reg "STORE" <|
  validateMemoryAddress vm address "STORE" do
    let value ← vm.readReg reg
    let cells ← vm.memory.memory.write address.toNat value
    return vm.setMemory { vm.memory with memory := cells }

/-- The body `ADD`, `SUB` and `MUL` share. -/
def executeArithmetic (name : String) (op : Word → Word → Word) (vm : DezVm) (instruction : Word) :
    Except Fault DezVm :=
  let reg1 := decodeReg1 instruction
  let reg2 := decodeReg2 instruction
  let reg3 := decodeReg3 instruction
  let immediate := decodeExtImmediate instruction
  let immediateMode := isImmediateMode instruction
  validateRegister vm reg1 name <|
  validateRegister vm reg2 name <|
  if immediateMode then do
    let a ← vm.readReg reg2
    vm.writeReg reg1 (op a immediate)
  else
    validateRegister vm reg3 name do
      let a ← vm.readReg reg2
      let b ← vm.readReg reg3
      vm.writeReg reg1 (op a b)

def executeAdd := executeArithmetic "ADD" (· + ·)

def executeSub := executeArithmetic "SUB" (· - ·)

def executeMul := executeArithmetic "MUL" (· * ·)

/-- The division itself, once the divisor is known. -/
def divideBy (host : Host) (vm : DezVm) (reg1 reg2 : Byte) (divisor : Word) : Except Fault DezVm :=
  if divisor = 0#32 then
    return vm.fail (.printf "Error: Division by zero\n" [])
  else do
    let a ← vm.readReg reg2
    vm.writeReg reg1 (host.quotient a divisor)

def executeDiv (host : Host) (vm : DezVm) (instruction : Word) : Except Fault DezVm :=
  let reg1 := decodeReg1 instruction
  let reg2 := decodeReg2 instruction
  let reg3 := decodeReg3 instruction
  let immediate := decodeExtImmediate instruction
  let immediateMode := isImmediateMode instruction
  validateRegister vm reg1 "DIV" <|
  validateRegister vm reg2 "DIV" <|
  if immediateMode then divideBy host vm reg1 reg2 immediate
  else
    validateRegister vm reg3 "DIV" do
      let divisor ← vm.readReg reg3
      divideBy host vm reg1 reg2 divisor

def executeJmp (vm : DezVm) (instruction : Word) : Except Fault DezVm :=
  let targetAddress := decodeImmediate instruction
  validateMemoryAddress vm targetAddress "JMP" <|
  return vm.setPc targetAddress

/-- The body the conditional jumps share; `JZ` and `JNZ` check a register field before it. -/
def executeConditional (name : String) (condition : Word → Bool) (vm : DezVm) (instruction : Word) :
    Except Fault DezVm :=
  let targetAddress := decodeImmediate instruction
  validateMemoryAddress vm targetAddress name <|
  if condition vm.cpu.flags then return vm.setPc targetAddress else return vm

def executeJz (vm : DezVm) (instruction : Word) : Except Fault DezVm :=
  let reg := decodeReg1 instruction
  validateRegister vm reg "JZ" <|
  executeConditional "JZ" (fun flags => (flags &&& flagZero) != 0) vm instruction

def executeJnz (vm : DezVm) (instruction : Word) : Except Fault DezVm :=
  let reg := decodeReg1 instruction
  validateRegister vm reg "JNZ" <|
  executeConditional "JNZ" (fun flags => !((flags &&& flagZero) != 0)) vm instruction

def executeJl := executeConditional "JL" fun flags => (flags &&& flagLess) != 0

def executeJg := executeConditional "JG" fun flags => (flags &&& flagGreater) != 0

def executeJle := executeConditional "JLE" fun flags => (flags &&& (flagLess ||| flagEqual)) != 0

def executeJge := executeConditional "JGE" fun flags => (flags &&& (flagGreater ||| flagEqual)) != 0

/-- The flags `CMP` sets for an unsigned comparison. -/
def compareFlags (val1 val2 : Word) : Word :=
  if val1 = val2 then flagEqual ||| flagZero
  else if val1.toNat < val2.toNat then flagLess
  else flagGreater

def executeCmp (vm : DezVm) (instruction : Word) : Except Fault DezVm :=
  let reg1 := decodeReg1 instruction
  let reg2 := decodeReg2 instruction
  let immediate := decodeImmediate instruction
  validateRegister vm reg1 "CMP" <|
  validateRegister vm reg2 "CMP" do
    let val1 ← vm.readReg reg1
    -- a zero register field selects the immediate form
    let val2 ← if reg2 != 0#8 then vm.readReg reg2 else pure immediate
    return vm.setFlags (compareFlags val1 val2)

/-- The loop of `PRINT_STR`; `fuel` bounds the bytes left below `0x200`. -/
def printStr (mem : DezMemory) : ℕ → Word → Except Fault (List Output)
  | 0, _ => return []
  | fuel + 1, pos =>
    if pos.toNat < 0x200 then do
      let (byte, out) ← memoryReadByte mem pos
      if byte = 0#8 then return out
      else if byte = 0x5C#8 && (pos + 1#32).toNat < 0x200 then do
        let (nextByte, out') ← memoryReadByte mem (pos + 1#32)
        match escape nextByte with
        | some c => do
          let rest ← printStr mem fuel (pos + 2#32)
          return out ++ out' ++ .putc c :: rest
        | none => do
          let rest ← printStr mem fuel (pos + 1#32)
          return out ++ out' ++ .putc byte :: rest
      else do
        let rest ← printStr mem fuel (pos + 1#32)
        return out ++ .putc byte :: rest
    else return []
where
  /-- The character an escape letter after a backslash stands for. -/
  escape (b : Byte) : Option Byte :=
    match b.toNat with
    | 0x6E => some 0x0A
    | 0x74 => some 0x09
    | 0x72 => some 0x0D
    | 0x5C => some 0x5C
    | 0x22 => some 0x22
    | _ => none

def executeSys (vm : DezVm) (instruction : Word) : Except Fault DezVm :=
  let reg1 := decodeReg1 instruction
  let immediate := decodeImmediate instruction
  validateRegister vm reg1 "SYS" do
    let value ← vm.readReg reg1
    match immediate.toNat with
    | 1 => return vm.print [.printf "R%d = %d\n" [reg1.setWidth 32, value]]
    | 3 => return vm.print [.putc (value.setWidth 8)]
    | 2 =>
      let out ← printStr vm.memory (0x200 - value.toNat) value
      return vm.print out
    | 6 => return (vm.setState .halted).print [.printf "Program exited with code %d\n" [value]]
    | _ => return vm.print [.printf "Unknown system call: %d\n" [immediate]]

def executeHalt (vm : DezVm) (_instruction : Word) : Except Fault DezVm :=
  return (vm.setState .halted).print [.printf "Program halted\n" []]

def executeNop (vm : DezVm) (_instruction : Word) : Except Fault DezVm := return vm

/-- The body the two-source bitwise instructions share. -/
def executeBitwise (name : String) (op : Word → Word → Word) (vm : DezVm) (instruction : Word) :
    Except Fault DezVm :=
  let reg1 := decodeReg1 instruction
  let reg2 := decodeReg2 instruction
  let reg3 := decodeReg3 instruction
  validateRegister vm reg1 name <|
  validateRegister vm reg2 name <|
  validateRegister vm reg3 name do
    let a ← vm.readReg reg2
    let b ← vm.readReg reg3
    vm.writeReg reg1 (op a b)

def executeAnd := executeBitwise "AND" (· &&& ·)

def executeOr := executeBitwise "OR" (· ||| ·)

def executeXor := executeBitwise "XOR" (· ^^^ ·)

def executeNot (vm : DezVm) (instruction : Word) : Except Fault DezVm :=
  let reg1 := decodeReg1 instruction
  let reg2 := decodeReg2 instruction
  validateRegister vm reg1 "NOT" <|
  validateRegister vm reg2 "NOT" do
    let a ← vm.readReg reg2
    vm.writeReg reg1 (~~~a)

def executeShl (host : Host) := executeBitwise "SHL" host.shiftLeft

def executeShr (host : Host) := executeBitwise "SHR" host.shiftRight

/-- The body `INC` and `DEC` share. -/
def executeStepReg (name : String) (op : Word → Word) (vm : DezVm) (instruction : Word) :
    Except Fault DezVm :=
  let reg := decodeReg1 instruction
  validateRegister vm reg name do
    let a ← vm.readReg reg
    vm.writeReg reg (op a)

def executeInc := executeStepReg "INC" (· + 1#32)

def executeDec := executeStepReg "DEC" (· - 1#32)

def executeLoadIndirect (vm : DezVm) (instruction : Word) : Except Fault DezVm :=
  let destReg := decodeReg1 instruction
  let addrReg := decodeReg2 instruction
  validateRegister vm destReg "LOAD_INDIRECT" <|
  validateRegister vm addrReg "LOAD_INDIRECT" do
    let address ← vm.readReg addrReg
    validateMemoryAddress vm address "LOAD_INDIRECT" do
      let (value, memory, out) ← memoryReadWord vm.memory address
      ((vm.setMemory memory).print out).writeReg destReg value

/-- The result code of `memory_write_word` is dropped here, as in every other caller. -/
def executeStoreIndirect (vm : DezVm) (instruction : Word) : Except Fault DezVm :=
  let srcReg := decodeReg1 instruction
  let addrReg := decodeReg2 instruction
  validateRegister vm srcReg "STORE_INDIRECT" <|
  validateRegister vm addrReg "STORE_INDIRECT" do
    let address ← vm.readReg addrReg
    validateMemoryAddress vm address "STORE_INDIRECT" do
      let value ← vm.readReg srcReg
      let (_, memory, out) ← memoryWriteWord vm.memory address value
      return (vm.setMemory memory).print out

def executeLoadIndexed (vm : DezVm) (instruction : Word) : Except Fault DezVm :=
  let destReg := decodeReg1 instruction
  let baseReg := decodeReg2 instruction
  let indexReg := decodeReg3 instruction
  validateRegister vm destReg "LOAD_INDEXED" <|
  validateRegister vm baseReg "LOAD_INDEXED" <|
  validateRegister vm indexReg "LOAD_INDEXED" do
    let base ← vm.readReg baseReg
    let index ← vm.readReg indexReg
    let address := base + index
    validateMemoryAddress vm address "LOAD_INDEXED" do
      let (value, memory, out) ← memoryReadWord vm.memory address
      ((vm.setMemory memory).print out).writeReg destReg value

def executeStoreIndexed (vm : DezVm) (instruction : Word) : Except Fault DezVm :=
  let srcReg := decodeReg1 instruction
  let baseReg := decodeReg2 instruction
  let indexReg := decodeReg3 instruction
  validateRegister vm srcReg "STORE_INDEXED" <|
  validateRegister vm baseReg "STORE_INDEXED" <|
  validateRegister vm indexReg "STORE_INDEXED" do
    let base ← vm.readReg baseReg
    let index ← vm.readReg indexReg
    let address := base + index
    validateMemoryAddress vm address "STORE_INDEXED" do
      let value ← vm.readReg srcReg
      let (_, memory, out) ← memoryWriteWord vm.memory address value
      return (vm.setMemory memory).print out

def executePush (vm : DezVm) (instruction : Word) : Except Fault DezVm :=
  let reg := decodeReg1 instruction
  validateRegister vm reg "PUSH" <|
  validateStackOverflow vm "PUSH" do
    let value ← vm.readReg reg
    let (_, memory, out) ← memoryWriteWord vm.memory vm.cpu.sp value
    let vm := (vm.setMemory memory).print out
    return vm.setSp (vm.cpu.sp - 1#32)

def executePop (vm : DezVm) (instruction : Word) : Except Fault DezVm :=
  let reg := decodeReg1 instruction
  validateRegister vm reg "POP" <|
  validateStackUnderflow vm "POP" do
    let vm := vm.setSp (vm.cpu.sp + 1#32)
    let (value, memory, out) ← memoryReadWord vm.memory vm.cpu.sp
    ((vm.setMemory memory).print out).writeReg reg value

def executeCall (vm : DezVm) (instruction : Word) : Except Fault DezVm :=
  let targetAddress := decodeImmediate instruction
  validateMemoryAddress vm targetAddress "CALL" <|
  validateStackOverflow vm "CALL" do
    let (_, memory, out) ← memoryWriteWord vm.memory vm.cpu.sp (vm.cpu.pc + 1#32)
    let vm := (vm.setMemory memory).print out
    let vm := vm.setSp (vm.cpu.sp - 1#32)
    return vm.setPc targetAddress

def executeRet (vm : DezVm) (_instruction : Word) : Except Fault DezVm :=
  validateStackUnderflow vm "RET" do
    let vm := vm.setSp (vm.cpu.sp + 1#32)
    let (returnAddress, memory, out) ← memoryReadWord vm.memory vm.cpu.sp
    return ((vm.setMemory memory).print out).setPc returnAddress

def executeUnknown (vm : DezVm) (instruction : Word) : Except Fault DezVm :=
  return vm.fail (.printf "Error: Unknown instruction 0x%02X at PC %04X\n"
    [instruction >>> 24, vm.cpu.pc])

/-- The entry of the dispatch table that the machine uses. -/
structure InstructionInfo where
  execute : Host → DezVm → Word → Except Fault DezVm
  pcIncrement : Word

def instructionTable : DezInstructionType → InstructionInfo
  | .mov => ⟨fun _ => executeMov, 1⟩
  | .load => ⟨fun _ => executeLoad, 1⟩
  | .add => ⟨fun _ => executeAdd, 1⟩
  | .store => ⟨fun _ => executeStore, 1⟩
  | .sub => ⟨fun _ => executeSub, 1⟩
  | .mul => ⟨fun _ => executeMul, 1⟩
  | .div => ⟨executeDiv, 1⟩
  | .jmp => ⟨fun _ => executeJmp, 0⟩
  | .jz => ⟨fun _ => executeJz, 1⟩
  | .jnz => ⟨fun _ => executeJnz, 1⟩
  | .jl => ⟨fun _ => executeJl, 1⟩
  | .jg => ⟨fun _ => executeJg, 1⟩
  | .jle => ⟨fun _ => executeJle, 1⟩
  | .jge => ⟨fun _ => executeJge, 1⟩
  | .push => ⟨fun _ => executePush, 1⟩
  | .pop => ⟨fun _ => executePop, 1⟩
  | .cmp => ⟨fun _ => executeCmp, 1⟩
  | .sys => ⟨fun _ => executeSys, 1⟩
  | .and => ⟨fun _ => executeAnd, 1⟩
  | .or => ⟨fun _ => executeOr, 1⟩
  | .xor => ⟨fun _ => executeXor, 1⟩
  | .not => ⟨fun _ => executeNot, 1⟩
  | .shl => ⟨executeShl, 1⟩
  | .shr => ⟨executeShr, 1⟩
  | .inc => ⟨fun _ => executeInc, 1⟩
  | .dec => ⟨fun _ => executeDec, 1⟩
  | .loadIndirect => ⟨fun _ => executeLoadIndirect, 1⟩
  | .storeIndirect => ⟨fun _ => executeStoreIndirect, 1⟩
  | .loadIndexed => ⟨fun _ => executeLoadIndexed, 1⟩
  | .storeIndexed => ⟨fun _ => executeStoreIndexed, 1⟩
  | .call => ⟨fun _ => executeCall, 0⟩
  | .ret => ⟨fun _ => executeRet, 0⟩
  | .halt => ⟨fun _ => executeHalt, 0⟩
  | .nop => ⟨fun _ => executeNop, 1⟩

def unknownInstruction : InstructionInfo := ⟨fun _ => executeUnknown, 0⟩

def getInstructionInfo (opcode : Byte) : InstructionInfo :=
  match DezInstructionType.ofOpcode opcode with
  | some t => instructionTable t
  | none => unknownInstruction

/-- One call of `dez_vm_step`. -/
def dezVmStep (host : Host) (vm : DezVm) : Except Fault DezVm :=
  if vm.cpu.state ≠ .running then return vm
  else if vm.cpu.pc.toNat ≥ 4096 then
    return vm.fail (.printf "Error: Program counter out of bounds\n" [])
  else do
    let instruction ← vm.memory.memory.read vm.cpu.pc.toNat
    let vm := if vm.debugMode then
        vm.print [.printf "PC: %04X, Instruction: %08X\n" [vm.cpu.pc, instruction]]
      else vm
    let opcode : Byte := (instruction >>> 24).setWidth 8
    let info := getInstructionInfo opcode
    let oldPc := vm.cpu.pc
    let vm ← info.execute host vm instruction
    if vm.cpu.pc = oldPc then return vm.setPc (vm.cpu.pc + info.pcIncrement) else return vm

end Dez.Machine
