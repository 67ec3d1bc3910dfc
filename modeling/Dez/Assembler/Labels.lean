import Dez.Assembler.Encoding
import Dez.Assembler.Symbols

/-! Where the jumps to labels go. -/
namespace Dez.Assembler
variable {capacity : ℕ} {start : SymbolTable × Word} {before after : List Line}
  {name : CString 255}

/-- A label that gets its entry keeps it, with the number of instructions before it. -/
theorem named_label (line : ℕ) (hnew : start.1.named (name.copy 63) = [])
    (honce : ∀ other ∈ before ++ after, other.key ≠ some (name.copy 63))
    (hroom : ¬ (defineLines start before).1.Full) :
    (defineLines start (before ++ .label name line :: after)).1.named (name.copy 63) =
      [newEntry name.chars .label (start.2 + BitVec.ofNat 32 (instructions before).length) 0 none
        line] := by
  obtain ⟨hbefore, hafter⟩ := List.forall_mem_append.mp honce
  have hstill : (defineLines start before).1.named (name.copy 63) = [] :=
    (named_defineLines hbefore).trans hnew
  rw [defineLines_append, ← defineLines_address]
  exact (named_defineLines hafter).trans (named_add_self hstill hroom)

/-- A name that one line of the text defines, a label, stands for the number of instructions before
the line, if the symbol table had room for it there. -/
theorem address_label (stale : ℕ → Word → ℕ → Word) {input : List Byte} (i : ℕ) {line : ℕ}
    (hlines : (readSource input).lines = before ++ .label name line :: after)
    (honce : ∀ other ∈ before ++ after, other.key ≠ some (name.copy 63))
    (hroom : (defineLines (symbolTableInit, 0#32) before).1.symbols.length < 1024) :
    (addressOf (tableBefore stale symbolTableInit input i) (name.copy 63)).1.toNat % 4096 =
      (instructions before).length % 4096 := by
  have hnew : (symbolTableInit, 0#32).1.named (name.copy 63) = [] := rfl
  have hone := named_label line hnew honce (Nat.not_le.mpr hroom)
  rw [← hlines] at hone
  have hsettled : (sourceTable symbolTableInit input).Settled (name.copy 63) := by
    left
    rw [sourceTable, hone]
    exact List.cons_ne_nil _ _
  have hfound := @addressOf_named (tableBefore stale symbolTableInit input i) _ (some _)
    ((named_tableBefore hsettled).trans hone)
  rw [hfound]
  simp [newEntry]

/-- A jump or call to a name other than the four system calls, which one line of the text defines,
a label, for which the symbol table has room, has the number of instructions before the label as
its target. Names count up to their first 63 characters. -/
theorem jump_target (stale : ℕ → Word → ℕ → Word) (input : List Byte)
    (output : CArray Word capacity)
    (h : (parserParse stale (parserInit input symbolTableInit output)).1 = true) (i : ℕ)
    (inst : ParsedInstruction) (hi : (sourceInstructions input)[i]? = some inst)
    (ht : inst.type ∈ jumpTypes) (name : CString 255) (hop : inst.operand 0 = namedOperand name)
    (hcall : systemCall name.chars = none) (before after : List Line) (line : ℕ)
    (hlines : (readSource input).lines = before ++ .label name line :: after)
    (honce : ∀ other ∈ before ++ after, other.key ≠ some (name.copy 63))
    (hroom : (defineLines (symbolTableInit, 0#32) before).1.symbols.length < 1024) :
    ∃ hc : i < capacity,
      (decodeImmediate
        ((parserParse stale (parserInit input symbolTableInit output)).2.output ⟨i, hc⟩)).toNat =
      (instructions before).length % 4096 := by
  obtain ⟨hc, hword⟩ := parserParse_word h hi
  refine ⟨hc, ?_⟩
  rw [hword]
  have hlabel : inst.operand 0 = .label (name.copy 63) := by
    rw [hop, namedOperand, hcall]
  rw [encode_jump ht, decodeImmediate_encodeJump, hlabel]
  exact address_label stale i hlines honce hroom

/-- A forward jump over two instructions. -/
theorem jump_target_forward : ∃ hc : 0 < 3,
    (decodeImmediate ((parserParse (fun _ _ _ => 0) (parserInit
      (bytes "JMP END\nNOP\nEND:\nHALT") symbolTableInit (fun _ => 0))).2.output ⟨0, hc⟩)).toNat =
    (instructions [.instruction ⟨.jmp, [namedOperand (.ofBytes 255 (bytes "END"))]⟩, .blank,
      .instruction ⟨.nop, []⟩, .blank]).length % 4096 :=
  jump_target (fun _ _ _ => 0) (bytes "JMP END\nNOP\nEND:\nHALT") (fun _ => 0) (by decide) 0
    ⟨.jmp, [namedOperand (.ofBytes 255 (bytes "END"))]⟩ (by decide +kernel) (by decide)
    (.ofBytes 255 (bytes "END")) rfl (by decide) _
    [.blank, .instruction ⟨.halt, []⟩] 3 (by decide +kernel) (by decide +kernel) (by decide)

/-- Instruction `i` of the text jumps to a name that labels one place in it, but not there. -/
def MissesLabel (input : List Byte) (i : ℕ) (name : CString 255) : Prop :=
  ∃ (inst : ParsedInstruction) (before after : List Line) (line : ℕ),
    (parserParse (fun _ _ _ => 0) (parserInit input symbolTableInit fun _ : Fin 8 => 0)).1 = true ∧
    (sourceInstructions input)[i]? = some inst ∧ inst.type ∈ jumpTypes ∧
    inst.operand 0 = namedOperand name ∧
    (readSource input).lines = before ++ .label name line :: after ∧
    (∀ other ∈ before ++ after, ∀ n, other ≠ .label name n) ∧
    ∃ hc : i < 8, (decodeImmediate ((parserParse (fun _ _ _ => 0)
      (parserInit input symbolTableInit fun _ : Fin 8 => 0)).2.output ⟨i, hc⟩)).toNat ≠
      (instructions before).length

/-- A long name, different from others in its last character only. -/
def longName (last : Char) : List Byte := List.replicate 63 (ch 'A') ++ [ch last]

/-- The name of a system call, a name that agrees with another label's in its first 63 characters,
and the name of a constant. -/
theorem label_missed :
    MissesLabel (bytes "PRINT:\nNOP\nJMP PRINT") 1 (.ofBytes 255 (bytes "PRINT")) ∧
    MissesLabel
      (longName 'B' ++ bytes ":\nNOP\n" ++ longName 'C' ++ bytes ":\nJMP " ++ longName 'B') 1
      (.ofBytes 255 (longName 'B')) ∧
    MissesLabel (bytes "EQU A EQU 9\nEQU:\nJMP EQU") 0 (.ofBytes 255 (bytes "EQU")) := by
  refine ⟨?_, ?_, ?_⟩
  · exact ⟨⟨.jmp, [.immediate 1]⟩, [],
      [.blank, .instruction ⟨.nop, []⟩, .blank, .instruction ⟨.jmp, [.immediate 1]⟩], 1,
      by decide +kernel, by decide +kernel, by decide, by decide +kernel, by decide +kernel,
      by simp, by decide, by decide⟩
  · have hne : CString.ofBytes 255 (longName 'C') ≠ .ofBytes 255 (longName 'B') := by decide
    exact ⟨⟨.jmp, [.label (.ofBytes 63 (longName 'B'))]⟩, [],
      [.blank, .instruction ⟨.nop, []⟩, .blank, .label (.ofBytes 255 (longName 'C')) 3, .blank,
        .instruction ⟨.jmp, [.label (.ofBytes 63 (longName 'B'))]⟩], 1,
      by decide +kernel, by decide +kernel, by decide, by decide +kernel, by decide +kernel,
      by simp [hne], by decide, by decide +kernel⟩
  · exact ⟨⟨.jmp, [.label (.ofBytes 63 (bytes "EQU"))]⟩,
      [.constant (.ofBytes 255 (bytes "EQU")) 9 1, .blank],
      [.blank, .instruction ⟨.jmp, [.label (.ofBytes 63 (bytes "EQU"))]⟩], 2,
      by decide +kernel, by decide +kernel, by decide, by decide +kernel, by decide +kernel,
      by simp, by decide, by decide⟩

end Dez.Assembler
