import Dez.Reassembly

/-! Which words the assembler makes again of their disassembled text. -/
namespace Dez.Disassembler

open Assembler

section words

variable {type : DezInstructionType} {r1 r2 r3 : Fin 16} {low w : Word}

theorem decode_packed (type : DezInstructionType) (r1 r2 r3 : Fin 16) (h : low.toNat < 4096) :
    decodeOpcode (packed type r1 r2 r3 low) = type.opcode ∧
      decodeReg1 (packed type r1 r2 r3 low) = regByte r1 ∧
      decodeReg2 (packed type r1 r2 r3 low) = regByte r2 ∧
      decodeReg3 (packed type r1 r2 r3 low) = regByte r3 := by
  have hop := @opcode_packed type r1 r2 r3 low h
  have hreg : ∀ {b : Byte} {r : Fin 16}, b.toNat = r.val → b = regByte r := fun hb =>
    BitVec.eq_of_toNat_eq (hb.trans (regByte_toNat _).symm)
  refine ⟨?_, hreg (congrArg Fin.val (reg1_packed h)), hreg (congrArg Fin.val (reg2_packed h)),
    hreg (congrArg Fin.val (reg3_packed h))⟩
  rw [← hop, byteOf, decodeOpcode]
  apply BitVec.eq_of_toNat_eq
  rw [BitVec.toNat_setWidth, BitVec.toNat_setWidth, toNat_and_low _ 8 _ rfl, Nat.mod_mod]

theorem packed_inj {type' : DezInstructionType} {s1 s2 s3 : Fin 16} {low' : Word}
    (h : low.toNat < 4096) (h' : low'.toNat < 4096)
    (heq : packed type r1 r2 r3 low = packed type' s1 s2 s3 low') :
    r1 = s1 ∧ r2 = s2 ∧ r3 = s3 ∧ low = low' :=
  ⟨(reg1_packed h).symm.trans ((congrArg reg1 heq).trans (reg1_packed h')),
    (reg2_packed h).symm.trans ((congrArg reg2 heq).trans (reg2_packed h')),
    (reg3_packed h).symm.trans ((congrArg reg3 heq).trans (reg3_packed h')),
    (decodeImmediate_packed h).symm.trans
      ((congrArg decodeImmediate heq).trans (decodeImmediate_packed h'))⟩

theorem bytes_blank : bytes " " = [0x20#8] := rfl

theorem bytes_comma : bytes ", " = [ch ',', 0x20#8] := rfl

theorem bytes_immediate : bytes ", #" = [ch ',', 0x20#8, ch '#'] := rfl

theorem bytes_bracket : bytes ", [" = [ch ',', 0x20#8, ch '['] := rfl

theorem bytes_close : bytes "]" = [ch ']'] := rfl

theorem bytes_plus : bytes " + " = [0x20#8, ch '+', 0x20#8] := rfl

theorem bytes_hex : bytes " 0x" = [0x20#8, ch '0', ch 'x'] := rfl

theorem bytes_word : bytes " (0x" = [0x20#8, ch '(', ch '0', ch 'x'] := rfl

theorem bytes_end : bytes ")" = [ch ')'] := rfl

theorem bytes_hexadecimal : bytes "0123456789ABCDEF" = [ch '0', ch '1', ch '2', ch '3', ch '4',
    ch '5', ch '6', ch '7', ch '8', ch '9', ch 'A', ch 'B', ch 'C', ch 'D', ch 'E', ch 'F'] := rfl

theorem colon_notMem_hexadecimal (places : ℕ) (value : Word) :
    ch ':' ∉ hexadecimal places value := by
  have hdigit : ∀ k < 16, (bytes "0123456789ABCDEF").getD k 0 ≠ ch ':' := by
    rw [bytes_hexadecimal]
    decide
  intro h
  obtain ⟨i, -, hi⟩ := List.mem_map.mp h
  exact hdigit _ (Nat.mod_lt _ (by decide)) hi

theorem bytes_target : bytes " #" = [0x20#8, ch '#'] := rfl

section texts

variable (h : low.toNat < 4096)

include h

theorem disassembly_immediate (ht : type ∈ [.mov, .load, .jz, .jnz]) :
    disassembly (packed type r1 r2 r3 low) = mnemonicOf type ++
      (0x20#8 :: (dezGetRegisterName (regByte r1) ++
        (ch ',' :: 0x20#8 :: ch '#' :: (decimal low ++ [])))) := by
  obtain ⟨hop, h1, -, -⟩ := decode_packed type r1 r2 r3 h
  unfold disassembly
  simp only [hop, h1, decodeImmediate_packed h, DezInstructionType.ofOpcode_opcode]
  cases type with
  | mov | load | jz | jnz =>
    simp only [bytes_blank, bytes_immediate, List.append_assoc, List.append_nil, List.cons_append,
      List.nil_append]
    rfl
  | _ => simp at ht

theorem disassembly_store :
    disassembly (packed .store r1 r2 r3 low) = mnemonicOf .store ++ (0x20#8 ::
      (dezGetRegisterName (regByte r1) ++ (ch ',' :: 0x20#8 :: ch '[' ::
        (decimal low ++ [ch ']'])))) := by
  obtain ⟨hop, h1, -, -⟩ := decode_packed .store r1 r2 r3 h
  unfold disassembly
  simp only [hop, h1, decodeImmediate_packed h, DezInstructionType.ofOpcode_opcode, bytes_blank,
    bytes_bracket, List.append_assoc, List.cons_append, List.nil_append]
  rfl

theorem disassembly_arithmetic (ht : type ∈ [.add, .sub, .mul, .div]) :
    disassembly (packed type r1 r2 r3 low) = mnemonicOf type ++ (0x20#8 ::
      (dezGetRegisterName (regByte r1) ++ (ch ',' :: 0x20#8 ::
        (dezGetRegisterName (regByte r2) ++ (ch ',' :: 0x20#8 ::
          (dezGetRegisterName (regByte r3) ++ [])))))) := by
  obtain ⟨hop, h1, h2, h3⟩ := decode_packed type r1 r2 r3 h
  unfold disassembly
  simp only [hop, h1, h2, h3, DezInstructionType.ofOpcode_opcode]
  cases type with
  | add | sub | mul | div =>
    simp only [bytes_blank, bytes_comma, List.append_assoc, List.append_nil, List.cons_append,
      List.nil_append]
    rfl
  | _ => simp at ht

theorem disassembly_jmp :
    disassembly (packed .jmp r1 r2 r3 low) =
      mnemonicOf .jmp ++ (0x20#8 :: ch '#' :: (decimal low ++ [])) := by
  obtain ⟨hop, -, -, -⟩ := decode_packed .jmp r1 r2 r3 h
  unfold disassembly
  simp only [hop, decodeImmediate_packed h, DezInstructionType.ofOpcode_opcode, bytes_target,
    List.append_assoc, List.append_nil, List.cons_append, List.nil_append]
  rfl

theorem disassembly_cmp :
    disassembly (packed .cmp r1 r2 r3 low) = mnemonicOf .cmp ++ (0x20#8 ::
      (dezGetRegisterName (regByte r1) ++ (ch ',' :: 0x20#8 ::
        (dezGetRegisterName (regByte r2) ++ [])))) := by
  obtain ⟨hop, h1, h2, -⟩ := decode_packed .cmp r1 r2 r3 h
  unfold disassembly
  simp only [hop, h1, h2, DezInstructionType.ofOpcode_opcode, bytes_blank, bytes_comma,
    List.append_assoc, List.append_nil, List.cons_append, List.nil_append]
  rfl

theorem disassembly_sys :
    disassembly (packed .sys r1 r2 r3 low) = mnemonicOf .sys ++
      (0x20#8 :: (dezGetRegisterName (regByte r1) ++
        (ch ',' :: 0x20#8 :: (dezGetSyscallName low ++ [])))) := by
  obtain ⟨hop, h1, -, -⟩ := decode_packed .sys r1 r2 r3 h
  unfold disassembly
  simp only [hop, h1, decodeImmediate_packed h, DezInstructionType.ofOpcode_opcode, bytes_blank,
    bytes_comma, List.append_assoc, List.append_nil, List.cons_append, List.nil_append]
  rfl

theorem disassembly_single (ht : type ∈ [.inc, .dec]) :
    disassembly (packed type r1 r2 r3 low) =
      mnemonicOf type ++ (0x20#8 :: (dezGetRegisterName (regByte r1) ++ [])) := by
  obtain ⟨hop, h1, -, -⟩ := decode_packed type r1 r2 r3 h
  unfold disassembly
  simp only [hop, h1, DezInstructionType.ofOpcode_opcode]
  cases type with
  | inc | dec =>
    simp only [bytes_blank, List.append_assoc, List.append_nil, List.cons_append, List.nil_append]
    rfl
  | _ => simp at ht

theorem disassembly_bare (ht : type ∈ [.halt, .nop]) :
    disassembly (packed type r1 r2 r3 low) = mnemonicOf type ++ [] := by
  obtain ⟨hop, -, -, -⟩ := decode_packed type r1 r2 r3 h
  have htype :
      DezInstructionType.ofOpcode (decodeOpcode (packed type r1 r2 r3 low)) = some type := by
    rw [hop, DezInstructionType.ofOpcode_opcode]
  rw [disassembly_alone htype ht, hop, List.append_nil]
  rfl

/-- The instructions that go through a register end in a bracket or in an index and a bracket. -/
theorem disassembly_indirect
    (ht : type ∈ [.loadIndirect, .storeIndirect, .loadIndexed, .storeIndexed]) :
    ∃ tail lexemes, lexerIsAlnum (tail.headD 0#8) = false ∧ Spells tail lexemes ∧
      disassembly (packed type r1 r2 r3 low) = mnemonicOf type ++ (0x20#8 ::
        (dezGetRegisterName (regByte r1) ++ (ch ',' :: 0x20#8 :: ch '[' ::
          (dezGetRegisterName (regByte r2) ++ tail)))) := by
  obtain ⟨hop, h1, h2, h3⟩ := decode_packed type r1 r2 r3 h
  unfold disassembly
  simp only [hop, h1, h2, h3, DezInstructionType.ofOpcode_opcode]
  cases type with
  | loadIndirect | storeIndirect =>
    refine ⟨[ch ']'], _, rfl, spells_rbracket spells_nil, ?_⟩
    simp only [bytes_blank, bytes_bracket, bytes_close, List.append_assoc, List.cons_append,
      List.nil_append]
    rfl
  | loadIndexed | storeIndexed =>
    refine ⟨0x20#8 :: ch '+' :: 0x20#8 :: (dezGetRegisterName (regByte r3) ++ [ch ']']), _, rfl,
      spells_blank (spells_plus (spells_blank (spells_register r3 rfl
        (spells_rbracket spells_nil)))), ?_⟩
    simp only [bytes_blank, bytes_bracket, bytes_plus, bytes_close, List.append_assoc,
      List.cons_append, List.nil_append]
    rfl
  | _ => simp at ht

theorem disassembly_unknown (ht : type ∈ unnamed) :
    ∃ tail, ch ':' ∉ tail ∧
      disassembly (packed type r1 r2 r3 low) = bytes "UNKNOWN" ++ (0x20#8 :: tail) := by
  obtain ⟨hop, -, -, -⟩ := decode_packed type r1 r2 r3 h
  refine ⟨ch '0' :: ch 'x' :: (hexadecimal 2 (type.opcode.setWidth 32) ++ (0x20#8 :: ch '(' ::
    ch '0' :: ch 'x' :: (hexadecimal 8 (packed type r1 r2 r3 low) ++ [ch ')']))), ?_, ?_⟩
  · simp only [List.mem_cons, List.mem_append, not_or]
    exact ⟨by decide, by decide, colon_notMem_hexadecimal _ _, by decide, by decide, by decide,
      by decide, colon_notMem_hexadecimal _ _, by decide, List.not_mem_nil⟩
  · unfold disassembly
    simp only [hop, DezInstructionType.ofOpcode_opcode]
    cases type with
    | push | pop | jl | jg | jle | jge | call | ret | and | or | xor | not | shl | shr =>
      simp only [dezGetInstructionMnemonic, DezInstructionType.ofOpcode_opcode, bytes_hex,
        bytes_word, bytes_end, List.append_assoc, List.cons_append, List.nil_append]
    | _ => simp [unnamed] at ht

end texts

section readings

variable (h : low.toNat < 4096)

include h

theorem low_masked : low &&& 0x0FFF#32 = low := by
  apply BitVec.eq_of_toNat_eq
  rw [toNat_and_low _ 12 _ rfl]
  exact Nat.mod_eq_of_lt h

theorem reassembles_immediate (ht : type ∈ [.mov, .load]) :
    Reassembles (disassembly (packed type r1 r2 r3 low)) w ↔ packed type r1 0 0 low = w := by
  rw [disassembly_immediate h (by revert ht; cases type <;> decide)]
  refine reassembles_of_spells ⟨type, [.register r1, .immediate low]⟩
    (spells_mnemonic type rfl (spells_blank (spells_register r1 rfl (spells_comma (spells_blank
      (spells_hash (spells_decimal h rfl spells_nil))))))) ?_ ?_ fun stale table => ?_
  · exact List.append_ne_nil_of_right_ne_nil _ (List.cons_ne_nil _ _)
  · apply lineOf_named (by revert ht; cases type <;> decide)
    have hcount : numOperands type = 2 := by revert ht; cases type <;> decide
    rw [hcount]
    exact operandsOf_first (operandOf_register r1) (operandsOf_next (operandOf_hash h) rfl)
  · have hword : (parserEncodeInstruction stale table ⟨type, [.register r1, .immediate low]⟩).1 =
        parserEncodeJump type (regByte r1) low := by
      revert ht
      cases type with
      | mov | load => exact fun _ => rfl
      | _ => simp
    rw [hword, encodeJump_packed, low_masked h]

theorem reassembles_store :
    Reassembles (disassembly (packed .store r1 r2 r3 low)) w ↔ packed .store r1 0 0 low = w := by
  rw [disassembly_store h]
  refine reassembles_of_spells ⟨.store, [.register r1, .memory low]⟩
    (spells_mnemonic .store rfl (spells_blank (spells_register r1 rfl (spells_comma (spells_blank
      (spells_lbracket (spells_decimal h rfl (spells_rbracket spells_nil)))))))) ?_ ?_
    fun stale table => ?_
  · exact List.append_ne_nil_of_right_ne_nil _ (List.cons_ne_nil _ _)
  · apply lineOf_named (by decide)
    exact operandsOf_first (operandOf_register r1) (operandsOf_next (operandOf_brackets h) rfl)
  · have hword : (parserEncodeInstruction stale table
        ⟨.store, [.register r1, .memory low]⟩).1 = parserEncodeJump .store (regByte r1) low := rfl
    rw [hword, encodeJump_packed, low_masked h]

theorem reassembles_arithmetic (ht : type ∈ [.add, .sub, .mul, .div]) :
    Reassembles (disassembly (packed type r1 r2 r3 low)) w ↔ packed type r1 r2 r3 0#32 = w := by
  rw [disassembly_arithmetic h ht]
  refine reassembles_of_spells ⟨type, [.register r1, .register r2, .register r3]⟩
    (spells_mnemonic type rfl (spells_blank (spells_register r1 rfl (spells_comma (spells_blank
      (spells_register r2 rfl (spells_comma (spells_blank
        (spells_register r3 rfl spells_nil))))))))) ?_ ?_ fun stale table => ?_
  · exact List.append_ne_nil_of_right_ne_nil _ (List.cons_ne_nil _ _)
  · apply lineOf_named (by revert ht; cases type <;> decide)
    have hcount : numOperands type = 3 := by revert ht; cases type <;> decide
    rw [hcount]
    exact operandsOf_first (operandOf_register r1) (operandsOf_next (operandOf_register r2)
      (operandsOf_next (operandOf_register r3) rfl))
  · rw [encode_arithmetic ht, if_neg nofun]
    exact encodeArithmetic_packed type r1 r2 r3

theorem reassembles_jmp :
    Reassembles (disassembly (packed .jmp r1 r2 r3 low)) w ↔ packed .jmp 0 0 0 low = w := by
  rw [disassembly_jmp h]
  refine reassembles_of_spells ⟨.jmp, [.immediate low]⟩
    (spells_mnemonic .jmp rfl (spells_blank (spells_hash (spells_decimal h rfl spells_nil))))
    ?_ ?_ fun stale table => ?_
  · exact List.append_ne_nil_of_right_ne_nil _ (List.cons_ne_nil _ _)
  · exact lineOf_named (by decide) (operandsOf_first (operandOf_hash h) rfl)
  · have hword : (parserEncodeInstruction stale table ⟨.jmp, [.immediate low]⟩).1 =
        parserEncodeJump .jmp (regByte 0) low := rfl
    rw [hword, encodeJump_packed, low_masked h]

theorem reassembles_cmp :
    Reassembles (disassembly (packed .cmp r1 r2 r3 low)) w ↔ packed .cmp r1 r2 0 0#32 = w := by
  rw [disassembly_cmp h]
  refine reassembles_of_spells ⟨.cmp, [.register r1, .register r2]⟩
    (spells_mnemonic .cmp rfl (spells_blank (spells_register r1 rfl (spells_comma (spells_blank
      (spells_register r2 rfl spells_nil)))))) ?_ ?_ fun stale table => ?_
  · exact List.append_ne_nil_of_right_ne_nil _ (List.cons_ne_nil _ _)
  · exact lineOf_named (by decide)
      (operandsOf_first (operandOf_register r1) (operandsOf_next (operandOf_register r2) rfl))
  · exact encodeArithmetic_packed .cmp r1 r2 0

theorem reassembles_single (ht : type ∈ [.inc, .dec]) :
    Reassembles (disassembly (packed type r1 r2 r3 low)) w ↔ packed type r1 0 0 0#32 = w := by
  rw [disassembly_single h ht]
  refine reassembles_of_spells ⟨type, [.register r1]⟩
    (spells_mnemonic type rfl (spells_blank (spells_register r1 rfl spells_nil))) ?_ ?_
    fun stale table => ?_
  · exact List.append_ne_nil_of_right_ne_nil _ (List.cons_ne_nil _ _)
  · apply lineOf_named (by revert ht; cases type <;> decide)
    have hcount : numOperands type = 1 := by revert ht; cases type <;> decide
    rw [hcount]
    exact operandsOf_first (operandOf_register r1) rfl
  · have hword : (parserEncodeInstruction stale table ⟨type, [.register r1]⟩).1 =
        parserEncodeSingleRegister type (regByte r1) := by
      revert ht
      cases type with
      | inc | dec => exact fun _ => rfl
      | _ => simp
    rw [hword, encodeSingleRegister_packed]

theorem reassembles_bare (ht : type ∈ [.halt, .nop]) :
    Reassembles (disassembly (packed type r1 r2 r3 low)) w ↔ packed type 0 0 0 0#32 = w := by
  have hne : mnemonicOf type ≠ [] := by
    intro hnil
    have hhead := (mnemonic_spelling type (mem_all type)).2.1
    rw [hnil] at hhead
    cases hhead
  rw [disassembly_bare h ht]
  refine reassembles_of_spells ⟨type, []⟩ (spells_mnemonic type rfl spells_nil) ?_ ?_
    fun stale table => ?_
  · rwa [List.append_nil]
  · apply lineOf_named (by revert ht; cases type <;> decide)
    have hcount : numOperands type = 0 := by revert ht; cases type <;> decide
    rw [hcount]
    rfl
  · rw [← encodeSingle_packed]
    revert ht
    cases type with
    | halt | nop => exact fun _ => rfl
    | _ => simp

/-- The operand of a conditional jump is taken to be the register that is printed before it. -/
theorem not_reassembles_conditional (ht : type ∈ [.jz, .jnz]) :
    ¬ Reassembles (disassembly (packed type r1 r2 r3 low)) w := by
  rw [disassembly_immediate h (by revert ht; cases type <;> decide)]
  have hspells := spells_mnemonic type rfl (spells_blank (spells_register r1 rfl (spells_comma
    (spells_blank (spells_hash (spells_decimal h rfl spells_nil))))))
  refine not_reassembles_of_comma (.instruction ⟨type, [.register r1]⟩)
    (lineItems [comma, hash, numberLexeme (decimal low)]) hspells
    (List.append_ne_nil_of_right_ne_nil _ (List.cons_ne_nil _ _)) ?_ rfl
  apply lineOf_named (by revert ht; cases type <;> decide)
  have hcount : numOperands type = 1 := by revert ht; cases type <;> decide
  rw [hcount]
  exact operandsOf_first (operandOf_register r1) rfl

/-- The names of the system calls, as far as the parser knows them; the others are labels to it, and
their first bytes stand for the number. -/
def callNumber (call : Word) : Word :=
  (namedOperand (.ofBytes 255 (dezGetSyscallName call))).value 0 &&& 0x0FFF#32

theorem reassembles_sys :
    Reassembles (disassembly (packed .sys r1 r2 r3 low)) w ↔
      packed .sys r1 0 0 (callNumber low) = w := by
  have hnames : ∀ name ∈ ["PRINT", "PRINT_STR", "PRINT_CHAR", "READ", "READ_STR", "EXIT", "DEBUG",
      "UNKNOWN_SYS"], (bytes name).all lexerIsAlnum = true ∧
        lexerIsAlpha ((bytes name).headD 0#8) = true ∧ (bytes name).length ≤ 11 ∧
        isRegisterToken (bytes name) = false := by
    decide
  have hname : ∃ name ∈ ["PRINT", "PRINT_STR", "PRINT_CHAR", "READ", "READ_STR", "EXIT", "DEBUG",
      "UNKNOWN_SYS"], dezGetSyscallName low = bytes name := by
    unfold dezGetSyscallName
    split_ifs
    · exact ⟨"PRINT", by simp, rfl⟩
    · exact ⟨"PRINT_STR", by simp, rfl⟩
    · exact ⟨"PRINT_CHAR", by simp, rfl⟩
    · exact ⟨"READ", by simp, rfl⟩
    · exact ⟨"READ_STR", by simp, rfl⟩
    · exact ⟨"EXIT", by simp, rfl⟩
    · exact ⟨"DEBUG", by simp, rfl⟩
    · exact ⟨"UNKNOWN_SYS", by simp, rfl⟩
  obtain ⟨name, hmem, hname⟩ := hname
  obtain ⟨halnum, hhead, hlength, hregister⟩ := hnames name hmem
  rw [disassembly_sys h]
  unfold callNumber
  rw [hname]
  refine reassembles_of_spells ⟨.sys, [.register r1, namedOperand (.ofBytes 255 (bytes name))]⟩
    (spells_mnemonic .sys rfl (spells_blank (spells_register r1 rfl (spells_comma (spells_blank
      (spells_name (List.all_eq_true.mp halnum) hhead (by omega) rfl spells_nil)))))) ?_ ?_
    fun stale table => ?_
  · exact List.append_ne_nil_of_right_ne_nil _ (List.cons_ne_nil _ _)
  · exact lineOf_named (by decide)
      (operandsOf_first (operandOf_register r1) (operandsOf_next (operandOf_name hregister) rfl))
  · have hvalue : (namedOperand (.ofBytes 255 (bytes name))).value (stale 1) =
        (namedOperand (.ofBytes 255 (bytes name))).value 0 := by
      unfold namedOperand
      split <;> rfl
    have hword : (parserEncodeInstruction stale table
        ⟨.sys, [.register r1, namedOperand (.ofBytes 255 (bytes name))]⟩).1 =
        parserEncodeJump .sys (regByte r1)
          ((namedOperand (.ofBytes 255 (bytes name))).value (stale 1)) := rfl
    rw [hword, encodeJump_packed, hvalue]

/-- The parser wants a number or a label in the brackets. -/
theorem not_reassembles_indirect
    (ht : type ∈ [.loadIndirect, .storeIndirect, .loadIndexed, .storeIndexed]) :
    ¬ Reassembles (disassembly (packed type r1 r2 r3 low)) w := by
  obtain ⟨tail, lexemes, hbehind, htail, htext⟩ := disassembly_indirect h ht
  have hspells := spells_mnemonic type rfl (spells_blank (spells_register r1 rfl (spells_comma
    (spells_blank (spells_lbracket (spells_register r2 hbehind htail))))))
  rw [htext]
  apply not_reassembles_of_fail
  rw [textItems, hspells.2]
  apply lineOf_named_fail (by revert ht; cases type <;> decide)
  have hcount : ∃ n, numOperands type = n + 2 := by
    revert ht
    cases type with
    | loadIndirect | storeIndirect => exact fun _ => ⟨0, rfl⟩
    | loadIndexed | storeIndexed => exact fun _ => ⟨1, rfl⟩
    | _ => simp
  obtain ⟨n, hcount⟩ := hcount
  rw [hcount]
  exact operandsOf_fail (operandOf_register r1) (operandOf_registerBrackets r2)

theorem not_reassembles_unnamed (ht : type ∈ unnamed) :
    ¬ Reassembles (disassembly (packed type r1 r2 r3 low)) w := by
  obtain ⟨tail, hcolon, htext⟩ := @disassembly_unknown type r1 r2 r3 low h ht
  have hname : (bytes "UNKNOWN").all lexerIsAlnum = true ∧
      lexerIsAlpha ((bytes "UNKNOWN").headD 0#8) = true ∧ (bytes "UNKNOWN").length ≤ 255 :=
    ⟨rfl, rfl, by rw [show (bytes "UNKNOWN").length = 7 from rfl]; decide⟩
  have hblank : ch ':' ∉ 0x20#8 :: tail := by
    rw [List.mem_cons]
    rintro (hc | hc)
    · cases hc
    · exact hcolon hc
  have hitems := itemsFrom_name (List.all_eq_true.mp hname.1) hname.2.1 hname.2.2 rfl hblank
  rw [htext]
  apply not_reassembles_of_fail
  rw [textItems, hitems]
  exact lineOf_unknown _

end readings

end words

section instructions

/-- The lines whose word can be read back from its text, by their mnemonic and the form and value of
the operand that may be an immediate. -/
def ReadsBack (inst : ParsedInstruction) (value : Word) : Prop :=
  match inst.type with
  | .mov | .load | .store | .jmp | .inc | .dec | .halt | .nop => True
  | .add | .sub | .mul | .div => inst.writesImmediate = false
  | .cmp => inst.writesImmediate = true → value &&& 0x0FFF#32 = 0#32
  | .sys => value &&& 0x0FFF#32 ∈ [1#32, 2#32, 3#32, 6#32, 0xE55#32]
  | _ => False

theorem callNumber_eq_iff (call : Word) :
    callNumber call = call ↔ call ∈ [1#32, 2#32, 3#32, 6#32, 0xE55#32] := by
  have hcalls : (callNumber 1 = 1 ∧ callNumber 2 = 2 ∧ callNumber 3 = 3 ∧ callNumber 4 ≠ 4 ∧
      callNumber 5 ≠ 5 ∧ callNumber 6 = 6 ∧ callNumber 7 ≠ 7) ∧
      (namedOperand (.ofBytes 255 (bytes "UNKNOWN_SYS"))).value 0 &&& 0x0FFF#32 = 0xE55#32 := by
    decide
  obtain ⟨⟨hcall1, hcall2, hcall3, hcall4, hcall5, hcall6, hcall7⟩, hunknown⟩ := hcalls
  by_cases h1 : call = 1
  · subst h1
    exact iff_of_true hcall1 (by decide)
  by_cases h2 : call = 2
  · subst h2
    exact iff_of_true hcall2 (by decide)
  by_cases h3 : call = 3
  · subst h3
    exact iff_of_true hcall3 (by decide)
  by_cases h4 : call = 4
  · subst h4
    exact iff_of_false hcall4 (by decide)
  by_cases h5 : call = 5
  · subst h5
    exact iff_of_false hcall5 (by decide)
  by_cases h6 : call = 6
  · subst h6
    exact iff_of_true hcall6 (by decide)
  by_cases h7 : call = 7
  · subst h7
    exact iff_of_false hcall7 (by decide)
  have hname : dezGetSyscallName call = bytes "UNKNOWN_SYS" := by
    rw [dezGetSyscallName, if_neg h1, if_neg h2, if_neg h3, if_neg h4, if_neg h5, if_neg h6,
      if_neg h7]
  rw [callNumber, hname, hunknown]
  simp only [List.mem_cons, List.not_mem_nil, or_false]
  constructor
  · rintro rfl
    simp
  · rintro (h | h | h | h | h)
    · exact absurd h h1
    · exact absurd h h2
    · exact absurd h h3
    · exact absurd h h6
    · exact h.symm

variable {inst : ParsedInstruction} {stale : ℕ → Word} {table : SymbolTable} {w : Word}

/-- An immediate leaves bit 11 set in the word of `ADD`, `SUB`, `MUL` and `DIV`, and no text of
theirs does. -/
theorem reads_back_arithmetic (ht : inst.type ∈ [.add, .sub, .mul, .div])
    (h : inst.RegistersInPlace) (hw : w = (parserEncodeInstruction stale table inst).1) :
    Reassembles (disassembly w) w ↔ inst.writesImmediate = false := by
  have hcmp : inst.type ≠ .cmp := by
    rintro hc
    simp [hc] at ht
  have hwrites : inst.writesImmediate = decide ((inst.operand 2).type = .immediate) := by
    rw [ParsedInstruction.writesImmediate, if_neg hcmp]
  unfold ParsedInstruction.RegistersInPlace at h
  rw [registerOperands_arithmetic ht] at h
  obtain ⟨r1, h0⟩ := h 0 (by split <;> simp)
  obtain ⟨r2, h1⟩ := h 1 (by split <;> simp)
  rw [hw, encode_arithmetic ht]
  by_cases hi : (inst.operand 2).type = .immediate
  · rw [if_pos hi, reg_of_register h0, reg_of_register h1, encodeImmediateArithmetic_packed,
      reassembles_arithmetic (extImmediate_lt _) ht]
    refine iff_of_false (fun heq => ?_) (by simp [hwrites, hi])
    have hlow := (packed_inj (by decide) (extImmediate_lt _) heq).2.2.2
    have hbit := congrArg (BitVec.getLsbD · 11) hlow
    simp [-BitVec.getLsbD_eq_getElem] at hbit
  · obtain ⟨r3, h2⟩ := h 2 (by simp [hwrites, hi])
    rw [if_neg hi, reg_of_register h0, reg_of_register h1, reg_of_register h2,
      encodeArithmetic_packed, reassembles_arithmetic (by decide) ht]
    exact iff_of_true rfl (by simp [hwrites, hi])

theorem reads_back_cmp (ht : inst.type = .cmp) (h : inst.RegistersInPlace)
    (hw : w = (parserEncodeInstruction stale table inst).1) :
    Reassembles (disassembly w) w ↔
      (inst.writesImmediate = true → (inst.operand 1).value (stale 1) &&& 0x0FFF#32 = 0#32) := by
  have hops : ∀ immediate, registerOperands inst.type immediate =
      if immediate then [0] else [0, 1] := fun immediate => by rw [ht]; rfl
  have hwrites : inst.writesImmediate = decide ((inst.operand 1).type = .immediate) := by
    rw [ParsedInstruction.writesImmediate, if_pos ht]
  unfold ParsedInstruction.RegistersInPlace at h
  rw [hops] at h
  obtain ⟨r1, h0⟩ := h 0 (by split <;> simp)
  rw [hw, encode_cmp ht, ht]
  by_cases hi : (inst.operand 1).type = .immediate
  · rw [if_pos hi, reg_of_register h0, encodeJump_packed, reassembles_cmp (immediate_lt _)]
    constructor
    · exact fun heq _ => (packed_inj (by decide) (immediate_lt _) heq).2.2.2.symm
    · intro hzero
      rw [hzero (by simp [hwrites, hi])]
  · obtain ⟨r2, h1⟩ := h 1 (by simp [hwrites, hi])
    have hpair := encodeArithmetic_packed .cmp r1 r2 0
    rw [if_neg hi, reg_of_register h0, reg_of_register h1]
    refine iff_of_true ?_ (by simp [hwrites, hi])
    rw [show (0 : Byte) = regByte 0 from rfl, hpair]
    exact (reassembles_cmp (by decide)).mpr rfl

theorem reads_back_iff (h : inst.RegistersInPlace)
    (hw : w = (parserEncodeInstruction stale table inst).1) :
    Reassembles (disassembly w) w ↔ ReadsBack inst ((inst.operand 1).value (stale 1)) := by
  obtain ⟨type, operands⟩ := inst
  cases type with
  | mov | load =>
    obtain ⟨r, h0⟩ := h 0 (by simp [registerOperands])
    obtain ⟨v, hword, -⟩ := encode_value (by simp) h0
    rw [hw, hword]
    exact iff_of_true ((reassembles_immediate (immediate_lt v) (by simp)).mpr rfl) trivial
  | store =>
    obtain ⟨r, h0⟩ := h 0 (by simp [registerOperands])
    obtain ⟨v, hword, -⟩ := encode_value (by simp) h0
    rw [hw, hword]
    exact iff_of_true ((reassembles_store (immediate_lt v)).mpr rfl) trivial
  | sys =>
    obtain ⟨r, h0⟩ := h 0 (by simp [registerOperands])
    obtain ⟨v, hword, hv⟩ := encode_value (by simp) h0
    rw [hw, hword, hv rfl, reassembles_sys (immediate_lt _)]
    refine Iff.trans ⟨fun heq => ?_, fun heq => ?_⟩ (callNumber_eq_iff _)
    · exact (packed_inj (immediate_lt _) (immediate_lt _) heq).2.2.2
    · rw [heq]
  | jmp =>
    rw [hw, encode_jump (by simp [jumpTypes]), encodeJump_zero]
    exact iff_of_true ((reassembles_jmp (immediate_lt _)).mpr rfl) trivial
  | jz | jnz =>
    rw [hw, encode_jump (by simp [jumpTypes]), encodeJump_zero]
    exact iff_of_false (not_reassembles_conditional (immediate_lt _) (by simp)) id
  | jl | jg | jle | jge | call =>
    rw [hw, encode_jump (by simp [jumpTypes]), encodeJump_zero]
    exact iff_of_false (not_reassembles_unnamed (immediate_lt _) (by simp [unnamed])) id
  | inc | dec =>
    obtain ⟨r, h0⟩ := h 0 (by simp [registerOperands])
    rw [hw, encode_single (by simp) h0]
    exact iff_of_true ((reassembles_single (by decide) (by simp)).mpr rfl) trivial
  | push | pop =>
    obtain ⟨r, h0⟩ := h 0 (by simp [registerOperands])
    rw [hw, encode_single (by simp) h0]
    exact iff_of_false (not_reassembles_unnamed (by decide) (by simp [unnamed])) id
  | halt | nop =>
    rw [hw, encode_bare (by simp)]
    exact iff_of_true ((reassembles_bare (by decide) (by simp)).mpr rfl) trivial
  | ret =>
    rw [hw, encode_bare (by simp)]
    exact iff_of_false (not_reassembles_unnamed (by decide) (by simp [unnamed])) id
  | not =>
    obtain ⟨r1, h0⟩ := h 0 (by simp [registerOperands])
    obtain ⟨r2, h1⟩ := h 1 (by simp [registerOperands])
    rw [hw, encode_two (by simp) h0 h1]
    exact iff_of_false (not_reassembles_unnamed (by decide) (by simp [unnamed])) id
  | loadIndirect | storeIndirect =>
    obtain ⟨r1, h0⟩ := h 0 (by simp [registerOperands])
    obtain ⟨r2, h1⟩ := h 1 (by simp [registerOperands])
    rw [hw, encode_two (by simp) h0 h1]
    exact iff_of_false (not_reassembles_indirect (by decide) (by simp)) id
  | and | or | xor | shl | shr =>
    obtain ⟨r1, h0⟩ := h 0 (by simp [registerOperands])
    obtain ⟨r2, h1⟩ := h 1 (by simp [registerOperands])
    obtain ⟨r3, h2⟩ := h 2 (by simp [registerOperands])
    rw [hw, encode_three (by simp) h0 h1 h2]
    exact iff_of_false (not_reassembles_unnamed (by decide) (by simp [unnamed])) id
  | loadIndexed | storeIndexed =>
    obtain ⟨r1, h0⟩ := h 0 (by simp [registerOperands])
    obtain ⟨r2, h1⟩ := h 1 (by simp [registerOperands])
    obtain ⟨r3, h2⟩ := h 2 (by simp [registerOperands])
    rw [hw, encode_three (by simp) h0 h1 h2]
    exact iff_of_false (not_reassembles_indirect (by decide) (by simp)) id
  | cmp => exact reads_back_cmp rfl h hw
  | add | sub | mul | div => exact reads_back_arithmetic (by simp) h hw

end instructions

section claim

theorem length_mnemonic_le (opcode : Byte) : (dezGetInstructionMnemonic opcode).length ≤ 14 := by
  cases ht : DezInstructionType.ofOpcode opcode with
  | none =>
    unfold dezGetInstructionMnemonic
    rw [ht]
    decide
  | some type =>
    have hsame : dezGetInstructionMnemonic opcode = mnemonicOf type := by
      unfold mnemonicOf dezGetInstructionMnemonic
      rw [ht, DezInstructionType.ofOpcode_opcode]
    rw [hsame]
    exact (mnemonic_spelling type (mem_all type)).2.2

theorem length_register_le {reg : Byte} (h : reg.toNat < 16) :
    (dezGetRegisterName reg).length ≤ 3 := by
  have hreg : reg = regByte ⟨reg.toNat, h⟩ :=
    BitVec.eq_of_toNat_eq (regByte_toNat ⟨reg.toNat, h⟩).symm
  rw [hreg]
  exact (register_spelling _).2.2

theorem length_syscall_le (call : Word) : (dezGetSyscallName call).length ≤ 11 := by
  unfold dezGetSyscallName
  split_ifs <;> decide

/-- No text needs the whole of a buffer of 64 bytes. -/
theorem length_disassembly_lt (w : Word) : (disassembly w).length < 64 := by
  have hm := length_mnemonic_le (decodeOpcode w)
  have h1 := length_register_le (decodeReg1_lt w)
  have h2 := length_register_le (decodeReg2_lt w)
  have h3 := length_register_le (decodeReg3_lt w)
  have hd : (decimal (decodeImmediate w)).length ≤ 10 := length_decimalDigits 10 _
  have hs := length_syscall_le (decodeImmediate w)
  have hhex : ∀ places value, (hexadecimal places value).length = places := fun places value => by
    rw [hexadecimal, List.length_map, List.length_range]
  unfold disassembly
  dsimp only
  split <;> first
    | omega
    | simp only [bytes_blank, bytes_comma, bytes_immediate, bytes_bracket, bytes_close, bytes_plus,
        bytes_hex, bytes_word, bytes_end, bytes_target, List.length_append, hhex, List.length_cons,
        List.length_nil]
      omega

/-- The text printed for the word of an instruction line, its registers in place, is assembled to
that word again if and only if the mnemonic has an unconditional form that the parser reads: not the
instructions without a name, the conditional jumps, the register brackets, an arithmetic immediate,
a comparison with an immediate but 0, and the system calls that the parser does not know. -/
theorem reassembles_iff {capacity : ℕ} (stale : ℕ → Word → ℕ → Word) (input : List Byte)
    (table : SymbolTable) (output : CArray Word capacity) {outputSize : ℕ}
    (h : (parserParse stale (parserInit input table output)).1 = true) (i : ℕ)
    (inst : ParsedInstruction) (hi : (sourceInstructions input)[i]? = some inst)
    (hregisters : inst.RegistersInPlace) (hroom : 64 ≤ outputSize) :
    ∃ hc : i < capacity, ∃ text,
      dezDisasmInstruction ((parserParse stale (parserInit input table output)).2.output ⟨i, hc⟩)
          outputSize = some text ∧
        (Reassembles text
            ((parserParse stale (parserInit input table output)).2.output ⟨i, hc⟩) ↔
          ReadsBack inst ((inst.operand 1).value (stale 2 (BitVec.ofNat 32 i) 1))) := by
  obtain ⟨hc, hword⟩ := parserParse_word h hi
  refine ⟨hc, _, if_neg (by omega), ?_⟩
  rw [hword, List.take_of_length_le]
  · exact reads_back_iff hregisters rfl
  · have hlength := length_disassembly_lt (parserEncodeInstruction (stale 2 (BitVec.ofNat 32 i))
      (tableBefore stale table input i) inst).1
    omega

theorem reassembles_iff_mov : ∃ hc : 0 < 1, ∃ text,
    dezDisasmInstruction ((parserParse (fun _ _ _ => 0) (parserInit (bytes "MOV R1, 5")
        symbolTableInit fun _ => 0)).2.output ⟨0, hc⟩) 256 = some text ∧
      (Reassembles text ((parserParse (fun _ _ _ => 0) (parserInit (bytes "MOV R1, 5")
          symbolTableInit fun _ => 0)).2.output ⟨0, hc⟩) ↔
        ReadsBack ⟨.mov, [.register 1, .immediate 5]⟩
          ((ParsedInstruction.mk .mov [.register 1, .immediate 5]).operand 1 |>.value 0)) :=
  reassembles_iff (fun _ _ _ => 0) (bytes "MOV R1, 5") symbolTableInit (fun _ => 0)
    (by decide +kernel) 0 _ (by decide +kernel)
    (fun i hi => ⟨1, by rw [List.mem_singleton.mp hi]; rfl⟩) (by decide)

/-- The bits of the field that takes an immediate. -/
def immediateBits (type : DezInstructionType) : ℕ :=
  if type ∈ [.add, .sub, .mul, .div] then 11 else 12

/-- Registers where there must be registers, and otherwise registers and numbers that fit. -/
structure WellKinded (inst : ParsedInstruction) : Prop where
  registers : inst.RegistersInPlace
  numbers : ∀ operand ∈ inst.operands, (∃ r, operand = .register r) ∨
    ∃ value : Word, value.toNat < 2 ^ immediateBits inst.type ∧
      (operand = .immediate value ∨ operand = .memory value)

/-- `PUSH R0` is printed as an unknown instruction, which the assembler refuses. -/
theorem push_not_reassembled :
    ¬ ∀ (capacity : ℕ) stale input table (output : CArray Word capacity),
      (parserParse stale (parserInit input table output)).1 = true →
      ∀ i inst, (sourceInstructions input)[i]? = some inst → WellKinded inst →
        ∀ (hc : i < capacity) text, dezDisasmInstruction
          ((parserParse stale (parserInit input table output)).2.output ⟨i, hc⟩) 256 = some text →
        Reassembles text
          ((parserParse stale (parserInit input table output)).2.output ⟨i, hc⟩) := by
  intro h
  have hkind : WellKinded ⟨.push, [.register 0]⟩ :=
    ⟨fun i hi => ⟨0, by rw [List.mem_singleton.mp hi]; rfl⟩,
      fun operand ho => .inl ⟨0, List.mem_singleton.mp ho⟩⟩
  have hpush := h 1 (fun _ _ _ => 0) (bytes "PUSH R0") symbolTableInit (fun _ => 0)
    (by decide +kernel) 0 ⟨.push, [.register 0]⟩ (by decide +kernel) hkind (by decide)
    (bytes "UNKNOWN 0x0B (0x0B000000)") (by decide)
  exact absurd (hpush 0 (fun _ _ _ => 0) fun _ => 0).success (by decide)

end claim

end Dez.Disassembler
