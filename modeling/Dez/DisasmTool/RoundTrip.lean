import Dez.Readback
import Dez.Assembler.InstructionLines
import Dez.DisasmTool.Main

/-! A program assembled, listed by the tool, and assembled again. -/
namespace Dez.DisasmTool
open Assembler Disassembler Machine

section spelling

variable {text name : List Byte} {lexemes : List Lexeme} {c : Byte} {value : Word}

/-- A text that spells tokens and can stand in a line of its own. -/
structure Spelled (text : List Byte) (lexemes : List Lexeme) : Prop where
  spells : Spells text lexemes
  oneLine : ∀ c ∈ text, c ≠ 0#8 ∧ c ≠ newline

theorem spelled_nil : Spelled [] [] := ⟨spells_nil, nofun⟩

theorem oneLine_cons (hc : c ≠ 0#8 ∧ c ≠ newline) (h : Spelled text lexemes) :
    ∀ d ∈ c :: text, d ≠ 0#8 ∧ d ≠ newline := List.forall_mem_cons.mpr ⟨hc, h.oneLine⟩

theorem oneLine_alnum (hname : name.all lexerIsAlnum = true) (h : Spelled text lexemes) :
    ∀ d ∈ name ++ text, d ≠ 0#8 ∧ d ≠ newline := by
  intro d hd
  rcases List.mem_append.mp hd with hin | hin
  · have halnum := List.all_eq_true.mp hname d hin
    exact ⟨ne_of_alnum halnum rfl, ne_of_alnum halnum rfl⟩
  · exact h.oneLine d hin

theorem spelled_blank (h : Spelled text lexemes) : Spelled (0x20#8 :: text) lexemes :=
  ⟨spells_blank h.spells, oneLine_cons (by decide) h⟩

theorem spelled_comma (h : Spelled text lexemes) : Spelled (ch ',' :: text) (comma :: lexemes) :=
  ⟨spells_comma h.spells, oneLine_cons (by decide) h⟩

theorem spelled_hash (h : Spelled text lexemes) : Spelled (ch '#' :: text) (hash :: lexemes) :=
  ⟨spells_hash h.spells, oneLine_cons (by decide) h⟩

theorem spelled_lbracket (h : Spelled text lexemes) :
    Spelled (ch '[' :: text) (lbracket :: lexemes) :=
  ⟨spells_lbracket h.spells, oneLine_cons (by decide) h⟩

theorem spelled_rbracket (h : Spelled text lexemes) :
    Spelled (ch ']' :: text) (rbracket :: lexemes) :=
  ⟨spells_rbracket h.spells, oneLine_cons (by decide) h⟩

theorem spelled_mnemonic (type : DezInstructionType)
    (hbehind : lexerIsAlnum (text.headD 0#8) = false) (h : Spelled text lexemes) :
    Spelled (mnemonicOf type ++ text) (nameLexeme (mnemonicOf type) :: lexemes) :=
  ⟨spells_mnemonic type hbehind h.spells,
    oneLine_alnum (mnemonic_spelling type (mem_all type)).1 h⟩

theorem spelled_register (r : Fin 16) (hbehind : lexerIsAlnum (text.headD 0#8) = false)
    (h : Spelled text lexemes) :
    Spelled (dezGetRegisterName (regByte r) ++ text) (registerLexeme r :: lexemes) :=
  ⟨spells_register r hbehind h.spells, oneLine_alnum (register_spelling r).1 h⟩

theorem spelled_decimal (hvalue : value.toNat < 4096)
    (hbehind : lexerIsAlnum (text.headD 0#8) = false) (h : Spelled text lexemes) :
    Spelled (decimal value ++ text) (numberLexeme (decimal value) :: lexemes) := by
  refine ⟨spells_decimal hvalue hbehind h.spells, oneLine_alnum ?_ h⟩
  rw [List.all_eq_true]
  intro d hd
  rw [lexerIsAlnum, (decimal_spelling hvalue).1 d hd, Bool.or_true]

/-- The names of the system calls are identifiers. -/
theorem syscall_spelling (call : Word) : (dezGetSyscallName call).all lexerIsAlnum = true ∧
    lexerIsAlpha ((dezGetSyscallName call).headD 0#8) = true ∧
    (dezGetSyscallName call).length ≤ 11 ∧ isRegisterToken (dezGetSyscallName call) = false := by
  unfold dezGetSyscallName
  split_ifs <;> decide

theorem spelled_syscall (call : Word) (hbehind : lexerIsAlnum (text.headD 0#8) = false)
    (h : Spelled text lexemes) :
    Spelled (dezGetSyscallName call ++ text) (nameLexeme (dezGetSyscallName call) :: lexemes) := by
  obtain ⟨halnum, hhead, hlength, -⟩ := syscall_spelling call
  exact ⟨spells_name (List.all_eq_true.mp halnum) hhead (by omega) hbehind h.spells,
    oneLine_alnum halnum h⟩

end spelling

section words

variable {type : DezInstructionType} {r1 r2 r3 : Fin 16} {low w : Word} {lexemes : List Lexeme}
  {inst : ParsedInstruction} {text : List Byte}

/-- The text of the word is a line of one instruction, and that instruction's word is the word. -/
def ReadsAs (w : Word) : Prop := ∃ inst, InstructionLine (disassembly w) inst w

theorem readsAs_spelled (inst : ParsedInstruction) (htext : disassembly w = text)
    (h : Spelled text lexemes)
    (hline : lineOf (lineItems lexemes) = .ok (.instruction inst) [])
    (hliteral : inst.literal = none)
    (hword : ∀ stale table, (parserEncodeInstruction stale table inst).1 = w) : ReadsAs w := by
  rw [← htext] at h
  refine ⟨inst, ⟨fun hc => (h.oneLine _ hc).1 rfl, fun hc => (h.oneLine _ hc).2 rfl, ?_, hliteral,
    hword⟩⟩
  rw [h.spells.2]
  exact hline

variable (h : low.toNat < 4096)

include h

theorem readsAs_immediate (ht : type ∈ [.mov, .load]) : ReadsAs (packed type r1 0 0 low) := by
  have hnames : type ∈ [.mov, .load, .jz, .jnz] :=
    List.mem_append_left [DezInstructionType.jz, .jnz] ht
  apply readsAs_spelled ⟨type, [.register r1, .immediate low]⟩
    (disassembly_immediate h hnames)
    (spelled_mnemonic type rfl (spelled_blank (spelled_register r1 rfl (spelled_comma
      (spelled_blank (spelled_hash (spelled_decimal h rfl spelled_nil)))))))
  · apply lineOf_named (by revert ht; cases type <;> decide)
    have hcount : numOperands type = 2 := by revert ht; cases type <;> decide
    rw [hcount]
    exact operandsOf_first (operandOf_register r1) (operandsOf_next (operandOf_hash h) rfl)
  · cases type <;> rfl
  · intro stale table
    have hword : (parserEncodeInstruction stale table ⟨type, [.register r1, .immediate low]⟩).1 =
        parserEncodeJump type (regByte r1) low := by
      revert ht
      cases type with
      | mov | load => exact fun _ => rfl
      | _ => simp
    rw [hword, encodeJump_packed, low_masked h]

theorem readsAs_store : ReadsAs (packed .store r1 0 0 low) := by
  apply readsAs_spelled ⟨.store, [.register r1, .memory low]⟩ (disassembly_store h)
    (spelled_mnemonic .store rfl (spelled_blank (spelled_register r1 rfl (spelled_comma
      (spelled_blank (spelled_lbracket (spelled_decimal h rfl (spelled_rbracket spelled_nil))))))))
  · apply lineOf_named (by decide)
    exact operandsOf_first (operandOf_register r1) (operandsOf_next (operandOf_brackets h) rfl)
  · rfl
  · intro stale table
    have hword : (parserEncodeInstruction stale table
        ⟨.store, [.register r1, .memory low]⟩).1 = parserEncodeJump .store (regByte r1) low := rfl
    rw [hword, encodeJump_packed, low_masked h]

theorem readsAs_jmp : ReadsAs (packed .jmp 0 0 0 low) := by
  apply readsAs_spelled ⟨.jmp, [.immediate low]⟩ (disassembly_jmp h)
    (spelled_mnemonic .jmp rfl (spelled_blank (spelled_hash (spelled_decimal h rfl spelled_nil))))
  · exact lineOf_named (by decide) (operandsOf_first (operandOf_hash h) rfl)
  · rfl
  · intro stale table
    have hword : (parserEncodeInstruction stale table ⟨.jmp, [.immediate low]⟩).1 =
        parserEncodeJump .jmp (regByte 0) low := rfl
    rw [hword, encodeJump_packed, low_masked h]

theorem readsAs_sys (hcall : callNumber low = low) : ReadsAs (packed .sys r1 0 0 low) := by
  obtain ⟨-, -, -, hregister⟩ := syscall_spelling low
  apply readsAs_spelled
    ⟨.sys, [.register r1, namedOperand (.ofBytes 255 (dezGetSyscallName low))]⟩
    (disassembly_sys h) (spelled_mnemonic .sys rfl (spelled_blank (spelled_register r1 rfl
      (spelled_comma (spelled_blank (spelled_syscall low rfl spelled_nil))))))
  · exact lineOf_named (by decide)
      (operandsOf_first (operandOf_register r1) (operandsOf_next (operandOf_name hregister) rfl))
  · rfl
  · intro stale table
    have hvalue : (namedOperand (.ofBytes 255 (dezGetSyscallName low))).value (stale 1) =
        (namedOperand (.ofBytes 255 (dezGetSyscallName low))).value 0 := by
      unfold namedOperand
      split <;> rfl
    have hword : (parserEncodeInstruction stale table
        ⟨.sys, [.register r1, namedOperand (.ofBytes 255 (dezGetSyscallName low))]⟩).1 =
        parserEncodeJump .sys (regByte r1)
          ((namedOperand (.ofBytes 255 (dezGetSyscallName low))).value (stale 1)) := rfl
    rw [hword, encodeJump_packed, hvalue]
    exact congrArg _ hcall

omit h

theorem readsAs_arithmetic (ht : type ∈ [.add, .sub, .mul, .div]) :
    ReadsAs (packed type r1 r2 r3 0#32) := by
  apply readsAs_spelled ⟨type, [.register r1, .register r2, .register r3]⟩
    (disassembly_arithmetic (by decide) ht)
    (spelled_mnemonic type rfl (spelled_blank (spelled_register r1 rfl (spelled_comma
      (spelled_blank (spelled_register r2 rfl (spelled_comma (spelled_blank
        (spelled_register r3 rfl spelled_nil)))))))))
  · apply lineOf_named (by revert ht; cases type <;> decide)
    have hcount : numOperands type = 3 := by revert ht; cases type <;> decide
    rw [hcount]
    exact operandsOf_first (operandOf_register r1) (operandsOf_next (operandOf_register r2)
      (operandsOf_next (operandOf_register r3) rfl))
  · cases type <;> rfl
  · intro stale table
    rw [encode_arithmetic ht, if_neg nofun]
    exact encodeArithmetic_packed type r1 r2 r3

theorem readsAs_cmp : ReadsAs (packed .cmp r1 r2 0 0#32) := by
  apply readsAs_spelled ⟨.cmp, [.register r1, .register r2]⟩
    (disassembly_cmp (by decide))
    (spelled_mnemonic .cmp rfl (spelled_blank (spelled_register r1 rfl (spelled_comma
      (spelled_blank (spelled_register r2 rfl spelled_nil))))))
  · exact lineOf_named (by decide)
      (operandsOf_first (operandOf_register r1) (operandsOf_next (operandOf_register r2) rfl))
  · rfl
  · exact fun stale table => encodeArithmetic_packed .cmp r1 r2 0

theorem readsAs_single (ht : type ∈ [.inc, .dec]) : ReadsAs (packed type r1 0 0 0#32) := by
  apply readsAs_spelled ⟨type, [.register r1]⟩ (disassembly_single (by decide) ht)
    (spelled_mnemonic type rfl (spelled_blank (spelled_register r1 rfl spelled_nil)))
  · apply lineOf_named (by revert ht; cases type <;> decide)
    have hcount : numOperands type = 1 := by revert ht; cases type <;> decide
    rw [hcount]
    exact operandsOf_first (operandOf_register r1) rfl
  · cases type <;> rfl
  · exact fun stale table => encode_single (List.mem_append_left [.push, .pop] ht) rfl

theorem readsAs_bare (ht : type ∈ [.halt, .nop]) : ReadsAs (packed type 0 0 0 0#32) := by
  apply readsAs_spelled ⟨type, []⟩ (disassembly_bare (by decide) ht)
    (spelled_mnemonic type rfl spelled_nil)
  · apply lineOf_named (by revert ht; cases type <;> decide)
    have hcount : numOperands type = 0 := by revert ht; cases type <;> decide
    rw [hcount]
    rfl
  · cases type <;> rfl
  · exact fun stale table => encode_bare (List.mem_append_left [DezInstructionType.ret] ht)

end words

section lines

variable {inst : ParsedInstruction} {stale : ℕ → Word} {table : SymbolTable}

theorem readsAs_of_arithmetic (ht : inst.type ∈ [.add, .sub, .mul, .div])
    (h : inst.RegistersInPlace) (hwrites : inst.writesImmediate = false) :
    ReadsAs (parserEncodeInstruction stale table inst).1 := by
  have hcmp : inst.type ≠ .cmp := by
    rintro hc
    simp [hc] at ht
  have hregister : ¬ (inst.operand 2).type = .immediate := by
    rw [ParsedInstruction.writesImmediate, if_neg hcmp] at hwrites
    exact of_decide_eq_false hwrites
  unfold ParsedInstruction.RegistersInPlace at h
  rw [registerOperands_arithmetic ht, hwrites] at h
  obtain ⟨r1, h0⟩ := h 0 (by simp)
  obtain ⟨r2, h1⟩ := h 1 (by simp)
  obtain ⟨r3, h2⟩ := h 2 (by simp)
  rw [encode_arithmetic ht, if_neg hregister, reg_of_register h0, reg_of_register h1,
    reg_of_register h2, encodeArithmetic_packed]
  exact readsAs_arithmetic ht

theorem readsAs_of_cmp (ht : inst.type = .cmp) (h : inst.RegistersInPlace)
    (hzero : inst.writesImmediate = true →
      (inst.operand 1).value (stale 1) &&& 0x0FFF#32 = 0#32) :
    ReadsAs (parserEncodeInstruction stale table inst).1 := by
  have hwrites : inst.writesImmediate = decide ((inst.operand 1).type = .immediate) := by
    rw [ParsedInstruction.writesImmediate, if_pos ht]
  have hops : ∀ immediate, registerOperands inst.type immediate =
      if immediate then [0] else [0, 1] := fun immediate => by rw [ht]; rfl
  unfold ParsedInstruction.RegistersInPlace at h
  rw [hops] at h
  obtain ⟨r1, h0⟩ := h 0 (by split <;> simp)
  rw [encode_cmp ht, ht]
  by_cases hi : (inst.operand 1).type = .immediate
  · rw [if_pos hi, reg_of_register h0, encodeJump_packed, hzero (by simp [hwrites, hi])]
    exact readsAs_cmp
  · obtain ⟨r2, h1⟩ := h 1 (by simp [hwrites, hi])
    have hpair := encodeArithmetic_packed .cmp r1 r2 0
    rw [if_neg hi, reg_of_register h0, reg_of_register h1]
    rw [show (0 : Byte) = regByte 0 from rfl, hpair]
    exact readsAs_cmp

/-- What can be read back line by line. -/
theorem readsAs_of_readsBack (h : inst.RegistersInPlace)
    (hreads : ReadsBack inst ((inst.operand 1).value (stale 1))) :
    ReadsAs (parserEncodeInstruction stale table inst).1 := by
  obtain ⟨type, operands⟩ := inst
  cases type with
  | mov | load =>
    obtain ⟨r, h0⟩ := h 0 (by simp [registerOperands])
    obtain ⟨v, hword, -⟩ := encode_value (by simp) h0
    rw [hword]
    exact readsAs_immediate (immediate_lt v) (by simp)
  | store =>
    obtain ⟨r, h0⟩ := h 0 (by simp [registerOperands])
    obtain ⟨v, hword, -⟩ := encode_value (by simp) h0
    rw [hword]
    exact readsAs_store (immediate_lt v)
  | sys =>
    obtain ⟨r, h0⟩ := h 0 (by simp [registerOperands])
    obtain ⟨v, hword, hv⟩ := encode_value (by simp) h0
    rw [hword, hv rfl]
    exact readsAs_sys (immediate_lt _) ((callNumber_eq_iff _).mpr hreads)
  | jmp =>
    rw [encode_jump (by simp [jumpTypes]), encodeJump_zero]
    exact readsAs_jmp (immediate_lt _)
  | inc | dec =>
    obtain ⟨r, h0⟩ := h 0 (by simp [registerOperands])
    rw [encode_single (by simp) h0]
    exact readsAs_single (by simp)
  | halt | nop =>
    rw [encode_bare (by simp)]
    exact readsAs_bare (by simp)
  | cmp => exact readsAs_of_cmp rfl h hreads
  | add | sub | mul | div => exact readsAs_of_arithmetic (by simp) h hreads
  | _ => exact hreads.elim

end lines

section listing

variable {ws : List Word} {capacity : ℕ}

/-- The instructions, a line each. -/
def listingText (ws : List Word) : List Byte := ws.flatMap fun w => disassembly w ++ [newline]

theorem lists_of_readsAs (h : ∀ w ∈ ws, ReadsAs w) : ∃ insts, Lists (listingText ws) insts ws := by
  induction ws with
  | nil => exact ⟨[], .nil⟩
  | cons w ws ih =>
    obtain ⟨⟨inst, hline⟩, hrest⟩ := List.forall_mem_cons.mp h
    obtain ⟨insts, hlists⟩ := ih hrest
    have htext : listingText (w :: ws) = disassembly w ++ newline :: listingText ws := by
      rw [listingText, List.flatMap_cons, List.append_assoc]
      rfl
    rw [htext]
    exact ⟨inst :: insts, .cons hline hlists⟩

theorem listingText_assembles (h : ∀ w ∈ ws, ReadsAs w) (stale : ℕ → Word → ℕ → Word)
    (allocated : CArray Word capacity) (hroom : ws.length ≤ capacity) :
    WritesBinary stale (listingText ws) allocated (programFile ws []) := by
  obtain ⟨insts, hlists⟩ := lists_of_readsAs h
  obtain ⟨hending, hinsts⟩ := lists_instructions hlists
  have hlength := (lists_length hlists).2
  have hwords : textWords stale (listingText ws) = ws := by
    rw [textWords, sourceWords, hinsts]
    exact lists_words hlists _ _ _
  have hread : (readSource (listingText ws)).ending ≠ .failed := by
    rw [hending]
    exact nofun
  have hwrite := writesBinary_of_no_literals stale allocated hread
    (by rw [hinsts, hlength]; exact hroom) (by rw [hinsts]; exact lists_literals hlists)
  rwa [hwords] at hwrite

/-- The text that is printed. -/
def rendered (out : List Printed) : List Byte := out.flatMap Printed.text

theorem printfText_string (text : List Byte) : printfText "%s" [.str text] = text := by
  have hpad : printfText "%s" [.str text] =
      List.replicate (0 - text.length) (ch ' ') ++ text ++ [] := rfl
  rw [hpad, Nat.zero_sub, List.replicate_zero, List.nil_append, List.append_nil]

theorem rendered_line {options : DisasmOptions} (hformat : options.format = .assembly)
    (haddresses : options.showAddresses = false) (hnumbers : options.showLineNumbers = false)
    (line : Line) : rendered (disassembleInstruction options none line) =
      disassembly line.instruction ++ [newline] := by
  have hlength := length_disassembly_lt line.instruction
  have htext : dezDisasmInstruction line.instruction 256 = some (disassembly line.instruction) := by
    rw [dezDisasmInstruction, if_neg (by decide), List.take_of_length_le (by omega)]
  have hnewline : printfText "\n" [] = [newline] := rfl
  simp [disassembleInstruction, hformat, haddresses, hnumbers, htext, printSymbolInfo,
    findSymbolName, rendered, Printed.text, printfText_string, hnewline]

theorem rendered_lines {options : DisasmOptions} (hformat : options.format = .assembly)
    (haddresses : options.showAddresses = false) (hnumbers : options.showLineNumbers = false)
    (lines : List Line) : rendered (lines.flatMap (disassembleInstruction options none)) =
      listingText (lines.map Line.instruction) := by
  induction lines with
  | nil => rfl
  | cons line lines ih =>
    have hline := rendered_line hformat haddresses hnumbers line
    rw [rendered] at ih hline
    rw [List.flatMap_cons, rendered, List.flatMap_append, hline, ih]
    rfl

/-- From the second word on. -/
theorem window_behind_header {n : ℕ} (h : n + 1 < 2 ^ 31) :
    window 4#32 0#32 (BitVec.ofNat 32 (n + 1)) =
      (1#32, BitVec.ofNat 32 (n + 1), BitVec.ofNat 32 (n + 1) - 1#32) := by
  have hstart : 4#32 / 4#32 = 1#32 := by decide
  have hclamp : (1#32 + BitVec.ofNat 32 (n + 1)).toNat > (BitVec.ofNat 32 (n + 1)).toNat := by
    bv_omega
  simp only [window, hstart, if_true, if_pos hclamp]

theorem instructions_behind_header (header : Word) (ws : List Word) :
    ((List.range' 1 ws.length).map (lineAt (header :: ws) 4#32 1#32)).map Line.instruction =
      ws := by
  apply List.ext_getElem
  · simp
  · intro i h1 h2
    simp [lineAt, Nat.add_comm 1 i, List.getD, h2]

/-- The tool lists a program file from its first instruction on as a source text. -/
theorem program_listed {options : DisasmOptions} {malloc : ℕ → Bool}
    {asmFile : List Byte → Option (List Byte)} (hsmall : ws.length + 1 < 2 ^ 29)
    (hmalloc : malloc ((ws.length + 1) * 4) = true) (hne : ws ≠ [])
    (hformat : options.format = .assembly) (haddresses : options.showAddresses = false)
    (hnumbers : options.showLineNumbers = false) (hheaders : options.showHeaders = false)
    (hsymbols : options.showSymbols = false) (hsymbolFile : options.symbolFile = none)
    (hstart : options.startAddr = 4#32) (hcount : options.count = 0#32) :
    ∃ listing banner lines, disassembleBinaryFile malloc asmFile options
        (some (programFile ws [])) = .ok listing ∧ listing.status = 0 ∧ listing.stderr = [] ∧
      listing.stdout = banner ++ lines ∧ banner.length = 3 ∧ rendered lines = listingText ws := by
  have hpos : 0 < ws.length := List.length_pos_iff.mpr hne
  have hread := readBinaryFile_words (List.cons_ne_nil (BitVec.ofNat 32 ws.length) ws) hsmall
    hmalloc options.filename
  rw [← programFile_words] at hread
  have htotal : (BitVec.ofNat 32 (ws.length + 1)).toNat = ws.length + 1 := by
    rw [BitVec.toNat_ofNat, Nat.mod_eq_of_lt (by omega)]
  have hwindow := window_behind_header (show ws.length + 1 < 2 ^ 31 by omega)
  have hlines := @listLines_eq (BitVec.ofNat 32 ws.length :: ws) (BitVec.ofNat 32 (ws.length + 1))
    ws.length 4#32 1#32 1#32 (Nat.le_of_eq htotal) (by rw [htotal]; rfl)
  have hone : (1#32).toNat = 1 := rfl
  have hinside : ¬ 1 ≥ ws.length + 1 := by omega
  simp only [disassembleBinaryFile, hread, hstart, hcount, List.length_cons,
    hwindow, hsymbols, hsymbolFile, htotal, hone, hinside, if_false, Nat.add_sub_cancel, hlines,
    ok_bind, hformat, hheaders]
  let last : Word := BitVec.ofNat 32 (ws.length + 1) - 1#32
  let lines := (List.range' 1 ws.length).map (lineAt (BitVec.ofNat 32 ws.length :: ws) 4#32 1#32)
  refine ⟨_, [.printf "=== DEZ Disassembler ===\n" [],
    .printf "File: %s (%u instructions)\n" [.str options.filename, .num (ws.length + 1)],
    .printf "Disassembling instructions %u-%u (addresses 0x%08X-0x%08X):\n\n"
      [.num 1, .num last.toNat, .num 4, .num (4#32 + (last - 1#32) * 4#32).toNat]],
    lines.flatMap (disassembleInstruction options none), rfl, rfl, rfl, ?_, rfl, ?_⟩
  · simp only [reduceCtorEq, or_self, if_false, Bool.false_eq_true, Option.map_none,
      Option.getD_none, List.append_nil]
    rfl
  · rw [rendered_lines hformat haddresses hnumbers, instructions_behind_header]

end listing

section roundTrip

variable {stale : ℕ → Word → ℕ → Word} {input file name programName : List Byte} {capacity : ℕ}
  {allocated : CArray Word capacity} {malloc : ℕ → Bool} {readable : List Byte → Bool}
  {contents : List Byte → Option (List Byte)}

/-- `-f assembly -s 4` and the file. -/
theorem parse_roundTrip (hname : name.head? ≠ some (ch '-')) :
    parseArguments [bytes "-f", bytes "assembly", bytes "-s", bytes "4", name]
        ⟨defaultOptions [], none, []⟩ =
      .run ⟨{ defaultOptions [] with format := .assembly, startAddr := 4#32 }, some name, []⟩ := by
  have hlays : Lays [bytes "-f", bytes "assembly"] (defaultOptions [])
      { defaultOptions [] with format := .assembly } := .format (.inl rfl) rfl (.nil _)
  have hflags := @parse_lays _ [bytes "-s", bytes "4", name] _ _ none [] hlays
  have haddress : strtoulText (bytes "4") 16 = 4#32 := by decide
  have hstart : ∀ a : Arguments, parseArguments [bytes "-s", bytes "4", name] a =
      parseArguments [name] { a with options := { a.options with startAddr := 4#32 } } := by
    intro a
    rw [parseArguments.eq_def]
    simp only [haddress]
    rfl
  rw [List.cons_append, List.cons_append, List.nil_append] at hflags
  rw [hflags, hstart, parse_positional hname]
  rfl

theorem textWords_readAs (h : ∀ i inst, (sourceInstructions input)[i]? = some inst →
      inst.RegistersInPlace ∧
        ReadsBack inst ((inst.operand 1).value (stale 2 (BitVec.ofNat 32 i) 1))) :
    ∀ w ∈ textWords stale input, ReadsAs w := by
  intro w hw
  obtain ⟨i, hi, rfl⟩ := List.getElem_of_mem hw
  have hlt : i < (sourceInstructions input).length := by
    rwa [textWords, length_sourceWords] at hi
  have hinst := List.getElem?_eq_getElem hlt
  have hword := sourceWords_getElem stale symbolTableInit hinst
  obtain ⟨_, hgot⟩ := List.getElem?_eq_some_iff.mp hword
  obtain ⟨hplace, hreads⟩ := h i _ hinst
  have hreadsAs :=
    @readsAs_of_readsBack _ _ (tableBefore stale symbolTableInit input i) hplace hreads
  rwa [← hgot] at hreadsAs

/-- A program without literals whose lines can be read back is listed by the tool as a source text
that the assembler makes the same file of. -/
theorem listing_reassembles (hwrite : WritesBinary stale input allocated file)
    (hliterals : literals (sourceInstructions input) = []) (hne : sourceInstructions input ≠ [])
    (hreads : ∀ i inst, (sourceInstructions input)[i]? = some inst → inst.RegistersInPlace ∧
      ReadsBack inst ((inst.operand 1).value (stale 2 (BitVec.ofNat 32 i) 1)))
    (hname : name.head? ≠ some (ch '-')) (hfile : name.take 2 ≠ bytes "0x")
    (hcontents : contents name = some file) (hsmall : file.length < 2 ^ 31)
    (hmalloc : malloc file.length = true) :
    ∃ banner lines,
      disasmMain malloc contents readable programName
          [bytes "-f", bytes "assembly", bytes "-s", bytes "4", name] =
        .ok ⟨0, banner ++ lines, []⟩ ∧
      banner.length = 3 ∧
      ∀ (capacity' : ℕ) (stale' : ℕ → Word → ℕ → Word) (allocated' : CArray Word capacity'),
        (sourceInstructions input).length ≤ capacity' →
        WritesBinary stale' (rendered lines) allocated' file := by
  have hreadAs := textWords_readAs hreads
  have hlength : (textWords stale input).length = (sourceInstructions input).length :=
    length_sourceWords
  have hprogram := file_of_no_literals hwrite hliterals
  have hbytes : file.length = ((textWords stale input).length + 1) * 4 := by
    rw [hprogram, programFile_words, length_flatMap_wordBytes, List.length_cons, Nat.mul_comm]
  have hsome : textWords stale input ≠ [] := by
    rw [← List.length_pos_iff, hlength]
    exact List.length_pos_iff.mpr hne
  obtain ⟨listing, banner, lines, hlisting, hstatus, hstderr, hstdout, hbanner, hrendered⟩ :=
    @program_listed (textWords stale input)
      { defaultOptions [] with format := .assembly, startAddr := 4#32, filename := name } malloc
      (fun name => (findAssemblyFile readable [] name []).bind contents) (by omega)
      (by rwa [hbytes] at hmalloc) hsome rfl rfl rfl rfl rfl rfl rfl rfl
  refine ⟨banner, lines, ?_, hbanner, fun capacity' stale' allocated' hroom => ?_⟩
  · have hfilter : (some name).filter (fun name => name.take 2 ≠ bytes "0x") = some name :=
      Option.filter_some_pos (decide_eq_true hfile)
    rw [disasmMain, if_neg (List.cons_ne_nil _ _), parse_roundTrip hname]
    rw [hprogram] at hcontents
    simp only [hfilter, hcontents, hlisting, ok_bind, hstatus, hstderr, hstdout]
    rfl
  · rw [hrendered, hprogram]
    exact listingText_assembles hreadAs stale' allocated' (by rwa [hlength])

/-- A loop that adds, by its name, and its file. -/
theorem listing_reassembles_loop :
    let input := bytes "again:\nADD R1, R1, R2\nJMP again"
    let file := programFile [parserEncodeArithmetic .add 1 1 2, parserEncodeJump .jmp 0 0] []
    let contents : List Byte → Option (List Byte) := fun name =>
      if name = bytes "a.bin" then some file else none
    sourceInstructions input = [⟨.add, [.register 1, .register 1, .register 2]⟩,
        ⟨.jmp, [.label (.ofBytes 63 (bytes "again"))]⟩] ∧
      ∃ banner lines,
        disasmMain (fun _ => true) contents (fun _ => false) (bytes "dez_disasm")
            [bytes "-f", bytes "assembly", bytes "-s", bytes "4", bytes "a.bin"] =
          .ok ⟨0, banner ++ lines, []⟩ ∧
        banner.length = 3 ∧
        ∀ (capacity' : ℕ) (stale' : ℕ → Word → ℕ → Word) (allocated' : CArray Word capacity'),
          (sourceInstructions input).length ≤ capacity' →
          WritesBinary stale' (rendered lines) allocated' file := by
  intro input file contents
  have hinsts : sourceInstructions input = [⟨.add, [.register 1, .register 1, .register 2]⟩,
      ⟨.jmp, [.label (.ofBytes 63 (bytes "again"))]⟩] := by decide +kernel
  have hwrite : WritesBinary (fun _ _ _ => 0) input (fun _ : Fin 2 => 0) file :=
    ⟨false, [], bytes "a.dez", by decide, by decide +kernel⟩
  refine ⟨hinsts, listing_reassembles hwrite (by rw [hinsts]; rfl) (by rw [hinsts]; exact nofun)
    ?_ (by decide) (by decide) rfl (by decide) rfl⟩
  intro i inst hi
  rw [hinsts] at hi
  match i, hi with
  | 0, hi =>
    cases hi
    refine ⟨fun k hk => ?_, rfl⟩
    have hk : k ∈ [0, 1, 2] := hk
    fin_cases hk
    · exact ⟨1, rfl⟩
    · exact ⟨1, rfl⟩
    · exact ⟨2, rfl⟩
  | 1, hi =>
    cases hi
    exact ⟨nofun, trivial⟩

end roundTrip

end Dez.DisasmTool
