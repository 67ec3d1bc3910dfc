import Dez.Disassembler
import Dez.Assembler.Encoding
import Dez.Assembler.Layout
import Dez.Assembler.Spelling
import Dez.Assembler.Truncation

/-! When the assembler makes of a disassembled word the word it was. -/
namespace Dez.Disassembler

open Assembler

/-- A parse that succeeded, read its text to the end and made this one word. -/
structure IsOneWord {room : ℕ} (result : Bool × Parser (room + 1)) (w : Word) : Prop where
  success : result.1 = true
  ended : (lexerPeekToken result.2.lexer).1.type = .eof
  size : result.2.outputSize = 1
  word : result.2.output 0 = w

/-- The text is assembled to this one word, whatever the room for words and the old contents of
memory. -/
def Reassembles (text : List Byte) (w : Word) : Prop :=
  ∀ (room : ℕ) (stale : ℕ → Word → ℕ → Word) (output : CArray Word (room + 1)),
    IsOneWord (parserParse stale (parserInit text symbolTableInit output)) w

section reading

variable {text : List Byte} {w word : Word}

theorem reassembles_of_lines {inst : ParsedInstruction}
    (hlines : (readSource text).lines = [.instruction inst])
    (hending : (readSource text).ending = .eof)
    (hword : ∀ stale table, (parserEncodeInstruction stale table inst).1 = word) :
    Reassembles text w ↔ word = w := by
  have hinsts : sourceInstructions text = [inst] := by
    rw [sourceInstructions, hlines]
    rfl
  have hparse : Reassembles text word := by
    intro room stale output
    have hsuccess := (parserParse_iff stale symbolTableInit output text).mpr
      ⟨by rw [hending]; exact nofun, by rw [hinsts]; exact Nat.le_add_left 1 room⟩
    obtain ⟨hlexer, -, -, hsize⟩ := parserParse_eq hsuccess
    obtain ⟨_, houtput⟩ := parserParse_word hsuccess (i := 0) (by rw [hinsts]; rfl)
    rw [hword] at houtput
    rw [hinsts] at hsize
    generalize parserParse stale (parserInit text symbolTableInit output) = result at *
    refine ⟨hsuccess, ?_, hsize, houtput⟩
    rw [hlexer]
    rcases readSource_ending text with h | ⟨-, h⟩ | ⟨h, -⟩
    · rw [hending] at h
      cases h
    · exact h
    · rw [hending] at h
      cases h
  constructor
  · intro h
    have hw := (h 0 (fun _ _ _ => 0) fun _ => 0).word
    exact (hparse 0 (fun _ _ _ => 0) fun _ => 0).word.symm.trans hw
  · rintro rfl
    exact hparse

theorem not_reassembles (hending : (readSource text).ending ≠ .eof) : ¬ Reassembles text w := by
  intro h
  obtain ⟨hsuccess, heof, -, -⟩ := h 0 (fun _ _ _ => 0) fun _ => 0
  have hread := ((parserParse_iff _ _ _ _).mp hsuccess).1
  rw [(parserParse_eq hsuccess).1] at heof
  rcases readSource_ending text with h | ⟨h, -⟩ | ⟨-, h⟩
  · exact hread h
  · exact hending h
  · exact h heof

/-- The tokens of one line. -/
def lineItems (lexemes : List Lexeme) : List Item :=
  lexemes.map fun lexeme => ⟨lexeme, 1, false⟩

variable {lexemes : List Lexeme}

theorem source_of_spells (h : Spells text lexemes) :
    (readSource text).lines = (linesOf (text.length + 1) (lineItems lexemes)).1 ∧
      (readSource text).ending = (linesOf (text.length + 1) (lineItems lexemes)).2 := by
  have hsource := readSource_lines text
  rwa [textItems, h.2] at hsource

/-- A text that is one instruction line. -/
theorem reassembles_of_spells (inst : ParsedInstruction) (h : Spells text lexemes) (hne : text ≠ [])
    (hline : lineOf (lineItems lexemes) = .ok (.instruction inst) [])
    (hword : ∀ stale table, (parserEncodeInstruction stale table inst).1 = word) :
    Reassembles text w ↔ word = w := by
  obtain ⟨n, hn⟩ := Nat.exists_eq_succ_of_ne_zero (mt List.eq_nil_of_length_eq_zero hne)
  obtain ⟨hsource, hending⟩ := source_of_spells h
  rw [hn, linesOf_ok (lineOf_ne_eof hline) hline] at hsource hending
  exact reassembles_of_lines hsource hending hword

theorem not_reassembles_of_fail (hline : lineOf (textItems text) = .fail) :
    ¬ Reassembles text w := by
  apply not_reassembles
  rw [(readSource_lines text).2]
  have heof : (headLexeme (textItems text)).type ≠ .eof := by
    intro heof
    simp only [lineOf, instructionOf, heof, reduceCtorEq, if_false, false_and, ne_eq,
      not_false_eq_true, if_true] at hline
    cases hline
  simp only [linesOf, heof, if_false, hline]
  intro hend
  cases hend

/-- Behind an operand too few the parser stops at a comma. -/
theorem not_reassembles_of_comma (line : Line) (rest : List Item) (h : Spells text lexemes)
    (hne : text ≠ []) (hline : lineOf (lineItems lexemes) = .ok line rest)
    (hcomma : (headLexeme rest).type = .comma) : ¬ Reassembles text w := by
  obtain ⟨n, hn⟩ := Nat.exists_eq_succ_of_ne_zero (mt List.eq_nil_of_length_eq_zero hne)
  have hstuck : lineOf rest = .stuck := by
    simp only [lineOf, instructionOf, hcomma, reduceCtorEq, if_false, false_and, ne_eq,
      not_false_eq_true, if_true]
    rfl
  apply not_reassembles
  rw [(source_of_spells h).2, hn, linesOf_ok (lineOf_ne_eof hline) hline]
  simp only [linesOf, hcomma, reduceCtorEq, if_false, hstuck]
  intro hend
  cases hend

end reading

section pieces

variable {text : List Byte} {lexemes : List Lexeme}

/-- The mnemonic printed for an instruction. -/
def mnemonicOf (type : DezInstructionType) : List Byte := dezGetInstructionMnemonic type.opcode

def registerLexeme (r : Fin 16) : Lexeme := nameLexeme (dezGetRegisterName (regByte r))

def comma : Lexeme := signLexeme .comma (ch ',')

def hash : Lexeme := signLexeme .hash (ch '#')

def lbracket : Lexeme := signLexeme .lbracket (ch '[')

def rbracket : Lexeme := signLexeme .rbracket (ch ']')

theorem mem_all (type : DezInstructionType) : type ∈ DezInstructionType.all :=
  List.mem_of_find?_eq_some (DezInstructionType.ofOpcode_opcode type)

theorem mnemonic_spelling : ∀ type ∈ DezInstructionType.all,
    (mnemonicOf type).all lexerIsAlnum = true ∧
      lexerIsAlpha ((mnemonicOf type).headD 0#8) = true ∧ (mnemonicOf type).length ≤ 14 := by
  decide

theorem spells_mnemonic (type : DezInstructionType)
    (hbehind : lexerIsAlnum (text.headD 0#8) = false) (h : Spells text lexemes) :
    Spells (mnemonicOf type ++ text) (nameLexeme (mnemonicOf type) :: lexemes) := by
  obtain ⟨hname, hhead, hlength⟩ := mnemonic_spelling type (mem_all type)
  exact spells_name (List.all_eq_true.mp hname) hhead (by omega) hbehind h

theorem register_spelling : ∀ r : Fin 16,
    (dezGetRegisterName (regByte r)).all lexerIsAlnum = true ∧
      lexerIsAlpha ((dezGetRegisterName (regByte r)).headD 0#8) = true ∧
      (dezGetRegisterName (regByte r)).length ≤ 3 := by
  decide

theorem spells_register (r : Fin 16) (hbehind : lexerIsAlnum (text.headD 0#8) = false)
    (h : Spells text lexemes) :
    Spells (dezGetRegisterName (regByte r) ++ text) (registerLexeme r :: lexemes) := by
  obtain ⟨hname, hhead, hlength⟩ := register_spelling r
  exact spells_name (List.all_eq_true.mp hname) hhead (by omega) hbehind h

theorem decimal_spelling {value : Word} (h : value.toNat < 4096) :
    (∀ d ∈ decimal value, lexerIsDigit d = true) ∧ decimal value ≠ [] ∧
      (decimal value).length ≤ 10 ∧ strtoul (decimal value) 10 = value := by
  have hdigit : ∀ d ∈ decimal value, 48 ≤ d.toNat ∧ d.toNat ≤ 57 := fun d =>
    digit_decimalDigits
  have hvalue : (decimal value).foldl (fun n c => n * 10 + digitValue c) 0 = value.toNat := by
    rw [← foldl_decimalDigits (show value.toNat < 10 ^ 10 by omega)]
    apply List.foldl_ext
    intro n d hd
    rw [digitValue, if_pos (hdigit d hd).2]
  refine ⟨fun d hd => ?_, ?_, length_decimalDigits 10 _, ?_⟩
  · simp only [lexerIsDigit, Bool.and_eq_true, decide_eq_true_eq]
    exact hdigit d hd
  · exact List.append_ne_nil_of_right_ne_nil _ (List.cons_ne_nil _ _)
  · rw [strtoul, hvalue, Nat.min_eq_left (by omega), BitVec.ofNat_toNat, BitVec.setWidth_eq]

theorem spells_decimal {value : Word} (hvalue : value.toNat < 4096)
    (hbehind : lexerIsAlnum (text.headD 0#8) = false) (h : Spells text lexemes) :
    Spells (decimal value ++ text) (numberLexeme (decimal value) :: lexemes) := by
  obtain ⟨hdigits, hne, hlength, -⟩ := decimal_spelling hvalue
  exact spells_number hdigits hne (by omega) hbehind h

theorem spells_comma (h : Spells text lexemes) : Spells (ch ',' :: text) (comma :: lexemes) :=
  spells_sign rfl (by decide) ⟨nofun, nofun⟩ rfl h

theorem spells_hash (h : Spells text lexemes) : Spells (ch '#' :: text) (hash :: lexemes) :=
  spells_sign rfl (by decide) ⟨nofun, nofun⟩ rfl h

theorem spells_lbracket (h : Spells text lexemes) :
    Spells (ch '[' :: text) (lbracket :: lexemes) :=
  spells_sign rfl (by decide) ⟨nofun, nofun⟩ rfl h

theorem spells_rbracket (h : Spells text lexemes) :
    Spells (ch ']' :: text) (rbracket :: lexemes) :=
  spells_sign rfl (by decide) ⟨nofun, nofun⟩ rfl h

theorem spells_plus (h : Spells text lexemes) :
    Spells (ch '+' :: text) (signLexeme .unknown (ch '+') :: lexemes) := by
  have hscan : scanToken (ch '+' :: text) = ⟨.unknown, [ch '+'], 0, 1⟩ := rfl
  refine spells_cons rfl hscan rfl nofun nofun ?_ h
  rw [List.mem_cons]
  rintro (hc | hc)
  · cases hc
  · exact h.1 hc

end pieces

section grammar

variable {lexemes : List Lexeme} {value : Word}

theorem registerLexeme_reads : ∀ r : Fin 16, (registerLexeme r).type = .register ∧
    registerNameToNumber (registerLexeme r).value.chars = regByte r := by
  decide

theorem operandOf_register (r : Fin 16) :
    operandOf (lineItems (registerLexeme r :: lexemes)) =
      .ok (.register r) (lineItems lexemes) := by
  obtain ⟨htype, hnumber⟩ := registerLexeme_reads r
  have hhead : headLexeme (lineItems (registerLexeme r :: lexemes)) = registerLexeme r := rfl
  unfold operandOf
  simp only [hhead, htype, hnumber, regByte_toNat, Fin.eta]
  rfl

theorem operandOf_hash (h : value.toNat < 4096) :
    operandOf (lineItems (hash :: numberLexeme (decimal value) :: lexemes)) =
      .ok (.immediate value) (lineItems lexemes) := by
  have hvalue : (numberLexeme (decimal value)).numValue = value := (decimal_spelling h).2.2.2
  calc operandOf (lineItems (hash :: numberLexeme (decimal value) :: lexemes))
      = .ok (.immediate (numberLexeme (decimal value)).numValue) (lineItems lexemes) := rfl
    _ = .ok (.immediate value) (lineItems lexemes) := by rw [hvalue]

theorem operandOf_brackets (h : value.toNat < 4096) :
    operandOf (lineItems (lbracket :: numberLexeme (decimal value) :: rbracket :: lexemes)) =
      .ok (.memory value) (lineItems lexemes) := by
  have hvalue : (numberLexeme (decimal value)).numValue = value := (decimal_spelling h).2.2.2
  calc operandOf (lineItems (lbracket :: numberLexeme (decimal value) :: rbracket :: lexemes))
      = .ok (.memory (numberLexeme (decimal value)).numValue) (lineItems lexemes) := rfl
    _ = .ok (.memory value) (lineItems lexemes) := by rw [hvalue]

/-- A register in brackets is no operand. -/
theorem operandOf_registerBrackets (r : Fin 16) :
    operandOf (lineItems (lbracket :: registerLexeme r :: lexemes)) = .fail := by
  have hhead : headLexeme (lineItems (registerLexeme r :: lexemes)) = registerLexeme r := rfl
  calc operandOf (lineItems (lbracket :: registerLexeme r :: lexemes))
      = memoryOperandOf (lineItems (lbracket :: registerLexeme r :: lexemes)) := rfl
    _ = .fail := by
      unfold memoryOperandOf
      simp only [lineItems, List.map_cons, List.tail_cons] at hhead ⊢
      rw [hhead, (registerLexeme_reads r).1]

theorem operandOf_name {name : List Byte} (h : isRegisterToken name = false) :
    operandOf (lineItems (nameLexeme name :: lexemes)) =
      .ok (namedOperand (.ofBytes 255 name)) (lineItems lexemes) := by
  unfold operandOf
  simp only [nameLexeme, h, Bool.false_eq_true, if_false]
  rfl

theorem operandsOf_first {n : ℕ} {operand : Operand} {operands : List Operand}
    {rest last : List Item} (h : operandOf (lineItems lexemes) = .ok operand rest)
    (hrest : operandsOf 1 n rest = .ok operands last) :
    operandsOf 0 (n + 1) (lineItems lexemes) = .ok (operand :: operands) last := by
  rw [operandsOf, if_neg (by simp), if_neg (by simp), h]
  simp only [Parse.bind, hrest]

theorem operandsOf_next {i n : ℕ} {operand : Operand} {operands : List Operand}
    {rest last : List Item} (h : operandOf (lineItems lexemes) = .ok operand rest)
    (hrest : operandsOf (i + 2) n rest = .ok operands last) :
    operandsOf (i + 1) (n + 1) (lineItems (comma :: lexemes)) =
      .ok (operand :: operands) last := by
  have htail : (lineItems (comma :: lexemes)).tail = lineItems lexemes := rfl
  rw [operandsOf, if_neg (by rintro ⟨-, hne⟩; exact hne rfl), if_pos (Nat.succ_pos i), htail, h]
  simp only [Parse.bind, hrest]

theorem operandsOf_fail {n : ℕ} {operand : Operand} {behind : List Lexeme}
    (h : operandOf (lineItems lexemes) = .ok operand (lineItems (comma :: behind)))
    (hfail : operandOf (lineItems behind) = .fail) :
    operandsOf 0 (n + 2) (lineItems lexemes) = .fail := by
  have htail : (lineItems (comma :: behind)).tail = lineItems behind := rfl
  have hnext : operandsOf 1 (n + 1) (lineItems (comma :: behind)) = .fail := by
    rw [operandsOf, if_neg (by rintro ⟨-, hne⟩; exact hne rfl), if_pos Nat.one_pos, htail, hfail]
    rfl
  rw [operandsOf, if_neg (by simp), if_neg (by simp), h]
  simp only [Parse.bind, hnext]

theorem lineOf_mnemonic {name : List Byte} {type : DezInstructionType} {n : ℕ}
    (hname : instructionNamed (CString.ofBytes 255 name).chars = some (type, n))
    (hregister : isRegisterToken name = false)
    (hequ : (CString.ofBytes 255 name).chars ≠ bytes "EQU") :
    lineOf (lineItems (nameLexeme name :: lexemes)) =
      (operandsOf 0 n (lineItems lexemes)).bind fun operands items =>
        .ok (.instruction ⟨type, operands⟩) items := by
  have hhead : headLexeme (lineItems (nameLexeme name :: lexemes)) = nameLexeme name := rfl
  have htype : (nameLexeme name).type = .identifier := by
    rw [nameLexeme, hregister, if_neg Bool.false_ne_true]
  have hvalue : (nameLexeme name).value = .ofBytes 255 name := rfl
  have hcolon : headColon (lineItems (nameLexeme name :: lexemes)) = false := rfl
  have htail : (lineItems (nameLexeme name :: lexemes)).tail = lineItems lexemes := rfl
  unfold lineOf instructionOf
  simp only [hhead, htype, hvalue, hcolon, htail, hname, hequ, reduceCtorEq, Bool.false_eq_true,
    and_false, if_false, ne_eq, not_true_eq_false]
  cases operandsOf 0 n (lineItems lexemes) <;> rfl

/-- The instructions the disassembler has no name for. -/
def unnamed : List DezInstructionType :=
  [.push, .pop, .jl, .jg, .jle, .jge, .call, .ret, .and, .or, .xor, .not, .shl, .shr]

/-- How many operands the parser reads behind the mnemonic. -/
def numOperands (type : DezInstructionType) : ℕ :=
  ((instructionNames.find? fun entry => entry.2.1 = type).map fun entry => entry.2.2).getD 0

theorem mnemonic_says : ∀ type ∈ DezInstructionType.all,
    isRegisterToken (mnemonicOf type) = false ∧
      (CString.ofBytes 255 (mnemonicOf type)).chars ≠ bytes "EQU" ∧
      instructionNamed (CString.ofBytes 255 (mnemonicOf type)).chars =
        if type ∈ unnamed then none else some (type, numOperands type) := by
  decide

/-- A line that gives a named instruction all its operands. -/
theorem lineOf_named {type : DezInstructionType} {operands : List Operand} {rest : List Item}
    (h : type ∉ unnamed)
    (hoperands : operandsOf 0 (numOperands type) (lineItems lexemes) = .ok operands rest) :
    lineOf (lineItems (nameLexeme (mnemonicOf type) :: lexemes)) =
      .ok (.instruction ⟨type, operands⟩) rest := by
  obtain ⟨hregister, hequ, hname⟩ := mnemonic_says type (mem_all type)
  rw [if_neg h] at hname
  rw [lineOf_mnemonic hname hregister hequ, hoperands]
  rfl

theorem lineOf_named_fail {type : DezInstructionType} (h : type ∉ unnamed)
    (hoperands : operandsOf 0 (numOperands type) (lineItems lexemes) = .fail) :
    lineOf (lineItems (nameLexeme (mnemonicOf type) :: lexemes)) = .fail := by
  obtain ⟨hregister, hequ, hname⟩ := mnemonic_says type (mem_all type)
  rw [if_neg h] at hname
  rw [lineOf_mnemonic hname hregister hequ, hoperands]
  rfl

/-- The parser knows no instruction by the name the unknown ones are given. -/
theorem lineOf_unknown (items : List Item) :
    lineOf (⟨nameLexeme (bytes "UNKNOWN"), 1, false⟩ :: items) = .fail := by
  have hnone : instructionNamed (nameLexeme (bytes "UNKNOWN")).value.chars = none := by
    decide
  have htype : (nameLexeme (bytes "UNKNOWN")).type = .identifier := by decide
  have hequ : (nameLexeme (bytes "UNKNOWN")).value.chars ≠ bytes "EQU" := by decide
  have hhead : headLexeme (⟨nameLexeme (bytes "UNKNOWN"), 1, false⟩ :: items) =
      nameLexeme (bytes "UNKNOWN") := rfl
  have hcolon : headColon (⟨nameLexeme (bytes "UNKNOWN"), 1, false⟩ :: items) = false := rfl
  unfold lineOf instructionOf
  simp only [hhead, htype, hcolon, hnone, hequ, reduceCtorEq, Bool.false_eq_true, and_false,
    if_false, ne_eq, not_true_eq_false]
  rfl

end grammar

end Dez.Disassembler
