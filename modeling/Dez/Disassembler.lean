import Dez.CString
import Dez.Instruction

/-! The disassembler of `dez_disasm.c`: the text of an instruction word. -/
namespace Dez.Disassembler

/-- The decimal digits of a number, in as many places as are allowed. -/
def decimalDigits : ℕ → ℕ → List Byte
  | 0, _ => []
  | places + 1, n =>
    (if n < 10 then [] else decimalDigits places (n / 10)) ++ [BitVec.ofNat 8 (48 + n % 10)]

/-- `%d`, for a value below `2 ^ 31` -/
def decimal (value : Word) : List Byte := decimalDigits 10 value.toNat

/-- `%0nX`, for a value of at most `n` digits -/
def hexadecimal (places : ℕ) (value : Word) : List Byte :=
  (List.range places).map fun i =>
    (bytes "0123456789ABCDEF").getD ((value >>> (4 * (places - 1 - i))).toNat % 16) 0

/-- `dez_get_instruction_mnemonic` -/
def dezGetInstructionMnemonic (opcode : Byte) : List Byte :=
  match DezInstructionType.ofOpcode opcode with
  | some .mov => bytes "MOV"
  | some .load => bytes "LOAD"
  | some .store => bytes "STORE"
  | some .add => bytes "ADD"
  | some .sub => bytes "SUB"
  | some .mul => bytes "MUL"
  | some .div => bytes "DIV"
  | some .jmp => bytes "JMP"
  | some .jz => bytes "JZ"
  | some .jnz => bytes "JNZ"
  | some .cmp => bytes "CMP"
  | some .sys => bytes "SYS"
  | some .inc => bytes "INC"
  | some .dec => bytes "DEC"
  | some .loadIndirect => bytes "LOAD_INDIRECT"
  | some .storeIndirect => bytes "STORE_INDIRECT"
  | some .loadIndexed => bytes "LOAD_INDEXED"
  | some .storeIndexed => bytes "STORE_INDEXED"
  | some .halt => bytes "HALT"
  | some .nop => bytes "NOP"
  | _ => bytes "UNKNOWN"

/-- `dez_get_register_name` -/
def dezGetRegisterName (reg : Byte) : List Byte :=
  let names := ["R0", "R1", "R2", "R3", "R4", "R5", "R6", "R7", "R8", "R9", "R10", "R11", "R12",
    "R13", "R14", "R15"]
  if reg.toNat < 16 then bytes (names.getD reg.toNat "") else bytes "R?"

/-- `dez_get_syscall_name` -/
def dezGetSyscallName (syscall : Word) : List Byte :=
  if syscall = 1 then bytes "PRINT"
  else if syscall = 2 then bytes "PRINT_STR"
  else if syscall = 3 then bytes "PRINT_CHAR"
  else if syscall = 4 then bytes "READ"
  else if syscall = 5 then bytes "READ_STR"
  else if syscall = 6 then bytes "EXIT"
  else if syscall = 7 then bytes "DEBUG"
  else bytes "UNKNOWN_SYS"

/-- The formats of `dez_disasm_instruction`. -/
def disassembly (instruction : Word) : List Byte :=
  let opcode := decodeOpcode instruction
  let reg1 := dezGetRegisterName (decodeReg1 instruction)
  let reg2 := dezGetRegisterName (decodeReg2 instruction)
  let reg3 := dezGetRegisterName (decodeReg3 instruction)
  let immediate := decodeImmediate instruction
  let mnemonic := dezGetInstructionMnemonic opcode
  match DezInstructionType.ofOpcode opcode with
  | some .mov | some .load => mnemonic ++ bytes " " ++ reg1 ++ bytes ", #" ++ decimal immediate
  | some .store => mnemonic ++ bytes " " ++ reg1 ++ bytes ", [" ++ decimal immediate ++ bytes "]"
  | some .add | some .sub | some .mul | some .div =>
    mnemonic ++ bytes " " ++ reg1 ++ bytes ", " ++ reg2 ++ bytes ", " ++ reg3
  | some .jmp => mnemonic ++ bytes " #" ++ decimal immediate
  | some .jz | some .jnz => mnemonic ++ bytes " " ++ reg1 ++ bytes ", #" ++ decimal immediate
  | some .cmp => mnemonic ++ bytes " " ++ reg1 ++ bytes ", " ++ reg2
  | some .sys => mnemonic ++ bytes " " ++ reg1 ++ bytes ", " ++ dezGetSyscallName immediate
  | some .halt => mnemonic
  | some .inc | some .dec => mnemonic ++ bytes " " ++ reg1
  | some .loadIndirect | some .storeIndirect =>
    mnemonic ++ bytes " " ++ reg1 ++ bytes ", [" ++ reg2 ++ bytes "]"
  | some .loadIndexed | some .storeIndexed =>
    mnemonic ++ bytes " " ++ reg1 ++ bytes ", [" ++ reg2 ++ bytes " + " ++ reg3 ++ bytes "]"
  | some .nop => mnemonic
  | _ =>
    mnemonic ++ bytes " 0x" ++ hexadecimal 2 (opcode.setWidth 32) ++ bytes " (0x" ++
      hexadecimal 8 instruction ++ bytes ")"

/-- The instructions printed by their mnemonic alone. -/
theorem disassembly_alone {w : Word} {type : DezInstructionType}
    (hop : DezInstructionType.ofOpcode (decodeOpcode w) = some type) (ht : type ∈ [.halt, .nop]) :
    disassembly w = dezGetInstructionMnemonic (decodeOpcode w) := by
  unfold disassembly
  simp only [hop]
  cases type with
  | halt | nop => rfl
  | _ => simp at ht

/-- `dez_disasm_instruction`: the string it leaves in the output, if it writes at all. -/
def dezDisasmInstruction (instruction : Word) (outputSize : ℕ) : Option (List Byte) :=
  if outputSize = 0 then none else some ((disassembly instruction).take (outputSize - 1))

example : disassembly 0x10A00FFF#32 = bytes "MOV R10, #4095" := by decide

example : disassembly 0x0B100000#32 = bytes "UNKNOWN 0x0B (0x0B100000)" := by decide

/-- Places enough write the number out. -/
theorem foldl_decimalDigits {places n : ℕ} (h : n < 10 ^ places) :
    (decimalDigits places n).foldl (fun m c => m * 10 + (c.toNat - 48)) 0 = n := by
  induction places generalizing n with
  | zero =>
    rw [decimalDigits, List.foldl_nil]
    omega
  | succ places ih =>
    have hdigit : (BitVec.ofNat 8 (48 + n % 10)).toNat = 48 + n % 10 := by
      rw [BitVec.toNat_ofNat]
      omega
    rw [decimalDigits, List.foldl_append]
    by_cases hn : n < 10
    · rw [if_pos hn]
      simp only [List.foldl_nil, List.foldl_cons, hdigit]
      omega
    · have hdiv : n / 10 < 10 ^ places := by
        rw [Nat.pow_succ] at h
        omega
      rw [if_neg hn, ih hdiv]
      simp only [List.foldl_nil, List.foldl_cons, hdigit]
      omega

theorem digit_decimalDigits {places n : ℕ} {c : Byte} (h : c ∈ decimalDigits places n) :
    48 ≤ c.toNat ∧ c.toNat ≤ 57 := by
  induction places generalizing n with
  | zero => cases h
  | succ places ih =>
    rw [decimalDigits, List.mem_append, List.mem_singleton] at h
    rcases h with h | rfl
    · split at h
      · cases h
      · exact ih h
    · rw [BitVec.toNat_ofNat]
      omega

theorem length_decimalDigits (places n : ℕ) : (decimalDigits places n).length ≤ places := by
  induction places generalizing n with
  | zero => exact le_rfl
  | succ places ih =>
    have hrest := ih (n / 10)
    rw [decimalDigits, List.length_append, List.length_singleton]
    split
    · exact Nat.succ_le_succ (Nat.zero_le _)
    · omega

end Dez.Disassembler
