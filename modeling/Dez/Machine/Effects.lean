import Dez.Machine.Instructions

/-! What an instruction does to the machine, said once: every handler performs one effect. -/
namespace Dez.Machine

namespace DezVm

/-- The value of a register. -/
def reg (vm : DezVm) (r : Fin 16) : Word := vm.cpu.regs r

def setReg (vm : DezVm) (r : Fin 16) (v : Word) : DezVm :=
  { vm with cpu := { vm.cpu with regs := vm.cpu.regs.set r v } }

@[simp] theorem print_nil (vm : DezVm) : vm.print [] = vm := by
  simp [print]

@[simp] theorem setMemory_self (vm : DezVm) : vm.setMemory vm.memory = vm := rfl

theorem readReg_of_lt {r : Byte} (vm : DezVm) (h : r.toNat < 16) :
    vm.readReg r = .ok (vm.reg ⟨r.toNat, h⟩) := CArray.read_of_lt _ h

theorem writeReg_of_lt {r : Byte} (vm : DezVm) (h : r.toNat < 16) (v : Word) :
    vm.writeReg r v = .ok (vm.setReg ⟨r.toNat, h⟩ v) := by
  simp [writeReg, CArray.write_of_lt _ h, setReg]

end DezVm

variable {vm : DezVm} {w v : Word} {name : String} {rest : Except Fault DezVm}

theorem validateRegister_of_lt {r : Byte} (h : r.toNat < 16) :
    validateRegister vm r name rest = rest :=
  if_neg (by omega)

@[simp] theorem validateRegister_reg1 : validateRegister vm (decodeReg1 w) name rest = rest :=
  validateRegister_of_lt (decodeReg1_lt w)

@[simp] theorem validateRegister_reg2 : validateRegister vm (decodeReg2 w) name rest = rest :=
  validateRegister_of_lt (decodeReg2_lt w)

@[simp] theorem validateRegister_reg3 : validateRegister vm (decodeReg3 w) name rest = rest :=
  validateRegister_of_lt (decodeReg3_lt w)

/-- A 12-bit address never fails the memory check. -/
@[simp] theorem validateMemoryAddress_immediate :
    validateMemoryAddress vm (decodeImmediate w) name rest = rest :=
  if_neg (by have := decodeImmediate_lt w; omega)

@[simp] theorem readReg_reg1 : vm.readReg (decodeReg1 w) = .ok (vm.reg (reg1 w)) :=
  vm.readReg_of_lt (decodeReg1_lt w)

@[simp] theorem readReg_reg2 : vm.readReg (decodeReg2 w) = .ok (vm.reg (reg2 w)) :=
  vm.readReg_of_lt (decodeReg2_lt w)

@[simp] theorem readReg_reg3 : vm.readReg (decodeReg3 w) = .ok (vm.reg (reg3 w)) :=
  vm.readReg_of_lt (decodeReg3_lt w)

@[simp] theorem writeReg_reg1 : vm.writeReg (decodeReg1 w) v = .ok (vm.setReg (reg1 w) v) :=
  vm.writeReg_of_lt (decodeReg1_lt w) v

/-- The memory after `memory_write_word`. -/
def DezMemory.store (mem : DezMemory) (a v : Word) : DezMemory :=
  if mem.Accepts a then mem.put a.toNat v else mem

/-- What `memory_write_word` prints. -/
def DezMemory.refused (mem : DezMemory) (a : Word) : List Output :=
  if mem.Accepts a then [] else [DezMemory.refusal a]

theorem memoryWriteWord_store (mem : DezMemory) (a v : Word) :
    memoryWriteWord mem a v =
      .ok (if mem.Accepts a then 0 else -1, mem.store a v, mem.refused a) := by
  rw [memoryWriteWord_eq]
  unfold DezMemory.store DezMemory.refused
  split <;> rfl

/-- The loop of `PRINT_STR` stays below byte `0x200`, so it faults nowhere. -/
theorem printStr_ok (mem : DezMemory) (fuel : ℕ) (pos : Word) :
    ∃ out, printStr mem fuel pos = .ok out := by
  induction fuel generalizing pos with
  | zero => exact ⟨_, rfl⟩
  | succ fuel ih =>
    obtain ⟨out1, h1⟩ := ih (pos + 1#32)
    obtain ⟨out2, h2⟩ := ih (pos + 2#32)
    unfold printStr
    by_cases hp : pos.toNat < 0x200
    · rw [if_pos hp, memoryReadByte_of_lt (by omega), ok_bind]
      by_cases h0 : mem.byte pos.toNat = 0#8
      · exact ⟨_, if_pos h0⟩
      · by_cases hb : mem.byte pos.toNat = 0x5C#8 && (pos + 1#32).toNat < 0x200
        · have hn : (pos + 1#32).toNat < 0x200 := by
            simp only [Bool.and_eq_true, decide_eq_true_eq] at hb
            exact hb.2
          have hnext : (pos + 1#32).toNat < 16384 := by omega
          simp only [h0, hb, if_true, if_false, memoryReadByte_of_lt hnext, ok_bind, h1, h2,
            pure_eq_ok]
          split <;> exact ⟨_, rfl⟩
        · simp only [h0, hb, if_false, h1, ok_bind]
          exact ⟨_, rfl⟩
    · exact ⟨_, if_neg hp⟩

/-- What `PRINT_STR` prints from a position. -/
def printedStr (mem : DezMemory) (pos : Word) : List Output :=
  match printStr mem (0x200 - pos.toNat) pos with
  | .ok out => out
  | .error _ => []

theorem printStr_eq (mem : DezMemory) (pos : Word) :
    printStr mem (0x200 - pos.toNat) pos = .ok (printedStr mem pos) := by
  obtain ⟨out, h⟩ := printStr_ok mem (0x200 - pos.toNat) pos
  simp [printedStr, h]

/-- The ways an instruction can change the machine. -/
inductive Effect
  | print (out : List Output)
  | fail (out : Output)
  | halt (out : List Output)
  | setReg (r : Fin 16) (v : Word)
  | setFlags (flags : Word)
  | jump (target : Word)
  /-- `STORE`: the array is assigned, whatever the protection. -/
  | assign (a : ℕ) (v : Word)
  /-- `STORE_INDIRECT`, `STORE_INDEXED`: the write may be refused. -/
  | store (a v : Word)
  | push (v : Word)
  | call (target : Word)
  | pop (r : Fin 16)
  | ret

namespace Effect

/-- `memory_write_word` at the stack pointer, then `sp--`. -/
def pushed (v : Word) (vm : DezVm) : DezVm :=
  ((vm.setMemory (vm.memory.store vm.cpu.sp v)).print (vm.memory.refused vm.cpu.sp)).setSp
    (vm.cpu.sp - 1#32)

/-- The machine after the effect, before `dez_vm_step` moves the program counter. -/
def perform : Effect → DezVm → DezVm
  | print out, vm => vm.print out
  | fail out, vm => vm.fail out
  | halt out, vm => (vm.setState .halted).print out
  | setReg r v, vm => vm.setReg r v
  | setFlags flags, vm => vm.setFlags flags
  | jump target, vm => vm.setPc target
  | assign a v, vm => vm.setMemory (vm.memory.put a v)
  | store a v, vm => (vm.setMemory (vm.memory.store a v)).print (vm.memory.refused a)
  | push v, vm => pushed v vm
  | call target, vm => (pushed (vm.cpu.pc + 1#32) vm).setPc target
  | pop r, vm => (vm.setSp (vm.cpu.sp + 1#32)).setReg r (vm.memory.word (vm.cpu.sp + 1#32).toNat)
  | ret, vm => (vm.setSp (vm.cpu.sp + 1#32)).setPc (vm.memory.word (vm.cpu.sp + 1#32).toNat)

/-- A load or store behind `DEZ_VALIDATE_MEMORY_ADDRESS`. -/
def checked (a : Word) (name : String) (e : Effect) : Effect :=
  if a.toNat < 4096 then e
  else fail (.printf ("Error: Memory address 0x%04X out of bounds in " ++ name ++ " instruction\n")
    [a])

def unlessFull (sp : Word) (name : String) (e : Effect) : Effect :=
  if sp.toNat < 0x800 then
    fail (.printf ("Error: Stack overflow in " ++ name ++ " instruction\n") [])
  else e

def unlessEmpty (sp : Word) (name : String) (e : Effect) : Effect :=
  if sp.toNat < 0xFFF then e
  else fail (.printf ("Error: Stack underflow in " ++ name ++ " instruction\n") [])

/-- A conditional jump that is not taken does nothing. -/
def jumpIf (condition : Bool) (target : Word) : Effect :=
  if condition then jump target else print []

end Effect

/-- The third operand of the arithmetic instructions: a register or an 11-bit immediate. -/
def thirdOperand (vm : DezVm) (w : Word) : Word :=
  if isImmediateMode w then decodeExtImmediate w else vm.reg (reg3 w)

def sysEffect (vm : DezVm) (w : Word) : Effect :=
  match (decodeImmediate w).toNat with
  | 1 => .print [.printf "R%d = %d\n" [(decodeReg1 w).setWidth 32, vm.reg (reg1 w)]]
  | 3 => .print [.putc ((vm.reg (reg1 w)).setWidth 8)]
  | 2 => .print (printedStr vm.memory (vm.reg (reg1 w)))
  | 6 => .halt [.printf "Program exited with code %d\n" [vm.reg (reg1 w)]]
  | _ => .print [.printf "Unknown system call: %d\n" [decodeImmediate w]]

/-- The effect of each instruction of the machine on a state. -/
def instructionEffect (host : Host) (vm : DezVm) (w : Word) : DezInstructionType → Effect
  | .mov => .setReg (reg1 w) (decodeImmediate w)
  | .load => .setReg (reg1 w) (vm.memory.word (decodeImmediate w).toNat)
  | .store => .assign (decodeImmediate w).toNat (vm.reg (reg1 w))
  | .add => .setReg (reg1 w) (vm.reg (reg2 w) + thirdOperand vm w)
  | .sub => .setReg (reg1 w) (vm.reg (reg2 w) - thirdOperand vm w)
  | .mul => .setReg (reg1 w) (vm.reg (reg2 w) * thirdOperand vm w)
  | .div =>
    if thirdOperand vm w = 0#32 then .fail (.printf "Error: Division by zero\n" [])
    else .setReg (reg1 w) (host.quotient (vm.reg (reg2 w)) (thirdOperand vm w))
  | .jmp => .jump (decodeImmediate w)
  | .jz => .jumpIf ((vm.cpu.flags &&& flagZero) != 0) (decodeImmediate w)
  | .jnz => .jumpIf (!((vm.cpu.flags &&& flagZero) != 0)) (decodeImmediate w)
  | .jl => .jumpIf ((vm.cpu.flags &&& flagLess) != 0) (decodeImmediate w)
  | .jg => .jumpIf ((vm.cpu.flags &&& flagGreater) != 0) (decodeImmediate w)
  | .jle => .jumpIf ((vm.cpu.flags &&& (flagLess ||| flagEqual)) != 0) (decodeImmediate w)
  | .jge => .jumpIf ((vm.cpu.flags &&& (flagGreater ||| flagEqual)) != 0) (decodeImmediate w)
  | .push => .unlessFull vm.cpu.sp "PUSH" (.push (vm.reg (reg1 w)))
  | .pop => .unlessEmpty vm.cpu.sp "POP" (.pop (reg1 w))
  | .call => .unlessFull vm.cpu.sp "CALL" (.call (decodeImmediate w))
  | .ret => .unlessEmpty vm.cpu.sp "RET" .ret
  | .cmp => .setFlags (compareFlags (vm.reg (reg1 w))
      (if decodeReg2 w != 0#8 then vm.reg (reg2 w) else decodeImmediate w))
  | .sys => sysEffect vm w
  | .and => .setReg (reg1 w) (vm.reg (reg2 w) &&& vm.reg (reg3 w))
  | .or => .setReg (reg1 w) (vm.reg (reg2 w) ||| vm.reg (reg3 w))
  | .xor => .setReg (reg1 w) (vm.reg (reg2 w) ^^^ vm.reg (reg3 w))
  | .not => .setReg (reg1 w) (~~~(vm.reg (reg2 w)))
  | .shl => .setReg (reg1 w) (host.shiftLeft (vm.reg (reg2 w)) (vm.reg (reg3 w)))
  | .shr => .setReg (reg1 w) (host.shiftRight (vm.reg (reg2 w)) (vm.reg (reg3 w)))
  | .inc => .setReg (reg1 w) (vm.reg (reg1 w) + 1#32)
  | .dec => .setReg (reg1 w) (vm.reg (reg1 w) - 1#32)
  | .loadIndirect => .checked (vm.reg (reg2 w)) "LOAD_INDIRECT"
      (.setReg (reg1 w) (vm.memory.word (vm.reg (reg2 w)).toNat))
  | .storeIndirect => .checked (vm.reg (reg2 w)) "STORE_INDIRECT"
      (.store (vm.reg (reg2 w)) (vm.reg (reg1 w)))
  | .loadIndexed => .checked (vm.reg (reg2 w) + vm.reg (reg3 w)) "LOAD_INDEXED"
      (.setReg (reg1 w) (vm.memory.word (vm.reg (reg2 w) + vm.reg (reg3 w)).toNat))
  | .storeIndexed => .checked (vm.reg (reg2 w) + vm.reg (reg3 w)) "STORE_INDEXED"
      (.store (vm.reg (reg2 w) + vm.reg (reg3 w)) (vm.reg (reg1 w)))
  | .halt => .halt [.printf "Program halted\n" []]
  | .nop => .print []

section handlers

variable (vm w)

theorem executeArithmetic_eq (name : String) (op : Word → Word → Word) :
    executeArithmetic name op vm w =
      .ok (vm.setReg (reg1 w) (op (vm.reg (reg2 w)) (thirdOperand vm w))) := by
  unfold executeArithmetic thirdOperand
  cases isImmediateMode w <;> simp

theorem executeBitwise_eq (name : String) (op : Word → Word → Word) :
    executeBitwise name op vm w =
      .ok (vm.setReg (reg1 w) (op (vm.reg (reg2 w)) (vm.reg (reg3 w)))) := by
  simp [executeBitwise]

theorem executeConditional_eq (name : String) (condition : Word → Bool) :
    executeConditional name condition vm w =
      .ok ((Effect.jumpIf (condition vm.cpu.flags) (decodeImmediate w)).perform vm) := by
  unfold executeConditional Effect.jumpIf
  cases condition vm.cpu.flags <;> simp [Effect.perform]

theorem executeStepReg_eq (name : String) (op : Word → Word) :
    executeStepReg name op vm w = .ok (vm.setReg (reg1 w) (op (vm.reg (reg1 w)))) := by
  simp [executeStepReg]

theorem divideBy_eq (host : Host) (divisor : Word) :
    divideBy host vm (decodeReg1 w) (decodeReg2 w) divisor =
      .ok (Effect.perform (if divisor = 0#32 then .fail (.printf "Error: Division by zero\n" [])
        else .setReg (reg1 w) (host.quotient (vm.reg (reg2 w)) divisor)) vm) := by
  unfold divideBy
  split <;> simp [Effect.perform]

theorem executeDiv_eq (host : Host) :
    executeDiv host vm w = .ok ((instructionEffect host vm w .div).perform vm) := by
  unfold executeDiv instructionEffect thirdOperand
  cases isImmediateMode w <;> simp [divideBy_eq]

theorem executeCmp_eq (host : Host) :
    executeCmp vm w = .ok ((instructionEffect host vm w .cmp).perform vm) := by
  unfold executeCmp instructionEffect
  simp only [validateRegister_reg1, validateRegister_reg2, readReg_reg1, readReg_reg2, ok_bind]
  by_cases h : decodeReg2 w = 0#8 <;> simp [h, Effect.perform]

theorem executeSys_eq : executeSys vm w = .ok ((sysEffect vm w).perform vm) := by
  unfold executeSys sysEffect
  simp only [validateRegister_reg1, readReg_reg1, ok_bind, printStr_eq]
  generalize (decodeImmediate w).toNat = n
  rcases n with _ | _ | _ | _ | _ | _ | _ | n <;> rfl

theorem validateMemoryAddress_eq {a : Word} {e : Effect}
    (h : a.toNat < 4096 → rest = .ok (e.perform vm)) :
    validateMemoryAddress vm a name rest = .ok ((Effect.checked a name e).perform vm) := by
  unfold validateMemoryAddress Effect.checked
  by_cases ha : a.toNat < 4096
  · rw [if_neg (by omega), if_pos ha, h ha]
  · rw [if_pos (by omega), if_neg ha]
    rfl

theorem validateStackOverflow_eq {e : Effect} (h : rest = .ok (e.perform vm)) :
    validateStackOverflow vm name rest = .ok ((Effect.unlessFull vm.cpu.sp name e).perform vm) := by
  unfold validateStackOverflow Effect.unlessFull
  rw [h]
  by_cases hs : vm.cpu.sp.toNat < 0x800
  · rw [if_pos hs, if_pos (by exact hs)]
    rfl
  · rw [if_neg hs, if_neg (by exact hs)]

theorem validateStackUnderflow_eq {e : Effect}
    (h : vm.cpu.sp.toNat < 0xFFF → rest = .ok (e.perform vm)) :
    validateStackUnderflow vm name rest =
      .ok ((Effect.unlessEmpty vm.cpu.sp name e).perform vm) := by
  unfold validateStackUnderflow Effect.unlessEmpty
  have hend : stackEnd.toNat = 0xFFF := rfl
  by_cases hs : vm.cpu.sp.toNat < 0xFFF
  · rw [if_neg (by omega), if_pos hs, h hs]
  · rw [if_pos (by omega), if_neg hs]
    rfl

/-- Below the end of the stack the incremented pointer is in range, so the read is direct. -/
theorem readAbove {sp : Word} (h : sp.toNat < 0xFFF) :
    memoryReadWord vm.memory (sp + 1#32) = .ok (vm.memory.word (sp + 1#32).toNat, vm.memory, []) :=
  memoryReadWord_of_lt (by bv_omega)

/-- Every handler of the table performs the effect of its instruction, and none faults. -/
theorem execute_eq (host : Host) (t : DezInstructionType) :
    (instructionTable t).execute host vm w = .ok ((instructionEffect host vm w t).perform vm) := by
  cases t with
  | add => exact executeArithmetic_eq ..
  | sub => exact executeArithmetic_eq ..
  | mul => exact executeArithmetic_eq ..
  | div => exact executeDiv_eq ..
  | and => exact executeBitwise_eq ..
  | or => exact executeBitwise_eq ..
  | xor => exact executeBitwise_eq ..
  | shl => exact executeBitwise_eq ..
  | shr => exact executeBitwise_eq ..
  | inc => exact executeStepReg_eq ..
  | dec => exact executeStepReg_eq ..
  | jl => exact executeConditional_eq vm w _ fun flags => (flags &&& flagLess) != 0
  | jg => exact executeConditional_eq vm w _ fun flags => (flags &&& flagGreater) != 0
  | jle => exact executeConditional_eq vm w _ fun flags => (flags &&& (flagLess ||| flagEqual)) != 0
  | jge =>
    exact executeConditional_eq vm w _ fun flags => (flags &&& (flagGreater ||| flagEqual)) != 0
  | jz => exact validateRegister_reg1.trans (executeConditional_eq ..)
  | jnz => exact validateRegister_reg1.trans (executeConditional_eq ..)
  | cmp => exact executeCmp_eq ..
  | sys => exact executeSys_eq ..
  | mov => simp [instructionTable, executeMov, instructionEffect, Effect.perform]
  | not => simp [instructionTable, executeNot, instructionEffect, Effect.perform]
  | jmp => simp [instructionTable, executeJmp, instructionEffect, Effect.perform]
  | halt => simp [instructionTable, executeHalt, instructionEffect, Effect.perform]
  | nop => simp [instructionTable, executeNop, instructionEffect, Effect.perform]
  | load =>
    simp [instructionTable, executeLoad, instructionEffect, Effect.perform,
      memoryReadWord_of_lt (decodeImmediate_lt w)]
  | store =>
    have h := decodeImmediate_lt w
    simp [instructionTable, executeStore, instructionEffect, Effect.perform,
      CArray.write_of_lt _ h, DezMemory.put, h]
  | loadIndirect =>
    simp only [instructionTable, executeLoadIndirect, instructionEffect, validateRegister_reg1,
      validateRegister_reg2, readReg_reg2, ok_bind]
    apply validateMemoryAddress_eq
    intro h
    simp [memoryReadWord_of_lt h, Effect.perform]
  | storeIndirect =>
    simp only [instructionTable, executeStoreIndirect, instructionEffect, validateRegister_reg1,
      validateRegister_reg2, readReg_reg1, readReg_reg2, ok_bind]
    apply validateMemoryAddress_eq
    intro h
    simp [memoryWriteWord_store, Effect.perform]
  | loadIndexed =>
    simp only [instructionTable, executeLoadIndexed, instructionEffect, validateRegister_reg1,
      validateRegister_reg2, validateRegister_reg3, readReg_reg2, readReg_reg3, ok_bind]
    apply validateMemoryAddress_eq
    intro h
    simp [memoryReadWord_of_lt h, Effect.perform]
  | storeIndexed =>
    simp only [instructionTable, executeStoreIndexed, instructionEffect, validateRegister_reg1,
      validateRegister_reg2, validateRegister_reg3, readReg_reg1, readReg_reg2, readReg_reg3,
      ok_bind]
    apply validateMemoryAddress_eq
    intro h
    simp [memoryWriteWord_store, Effect.perform]
  | push =>
    simp only [instructionTable, executePush, instructionEffect, validateRegister_reg1,
      readReg_reg1, ok_bind, memoryWriteWord_store]
    exact validateStackOverflow_eq _ rfl
  | call =>
    simp only [instructionTable, executeCall, instructionEffect, validateMemoryAddress_immediate,
      ok_bind, memoryWriteWord_store]
    exact validateStackOverflow_eq _ rfl
  | pop =>
    simp only [instructionTable, executePop, instructionEffect, validateRegister_reg1]
    apply validateStackUnderflow_eq
    intro h
    simp only [DezVm.setSp, readAbove vm h, ok_bind, writeReg_reg1, DezVm.print_nil]
    rfl
  | ret =>
    simp only [instructionTable, executeRet, instructionEffect]
    apply validateStackUnderflow_eq
    intro h
    simp only [DezVm.setSp, readAbove vm h, ok_bind, DezVm.print_nil]
    rfl

end handlers

end Dez.Machine
