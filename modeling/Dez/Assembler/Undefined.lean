import Dez.Assembler.Literals
import Dez.Assembler.Readings

/-! Which texts the assembler refuses, and the names it does not miss. -/
namespace Dez.Assembler

variable {capacity : ℕ} {symbols : List Symbol} {assembler : DezAssembler capacity}

section strings

/-- A string ends past the buffer, and those before it are copied inside. -/
def Exceeds (capacity : ℕ) (symbols : List Symbol) : Prop :=
  ∃ before sym after, symbols.filter Symbol.isString = before ++ sym :: after ∧
    capacity * 4 < sym.endAddr.toNat ∧
    ∀ earlier ∈ before, 4 * earlier.address.toNat + earlier.text.length ≤ 4 * capacity

theorem exceeds_cons_other {sym : Symbol} (hs : ¬ sym.isString = true) :
    Exceeds capacity (sym :: symbols) ↔ Exceeds capacity symbols := by
  unfold Exceeds
  rw [List.filter_cons_of_neg hs]

theorem exceeds_cons {sym : Symbol} (hs : sym.isString = true) :
    Exceeds capacity (sym :: symbols) ↔ capacity * 4 < sym.endAddr.toNat ∨
      4 * sym.address.toNat + sym.text.length ≤ 4 * capacity ∧ Exceeds capacity symbols := by
  unfold Exceeds
  rw [List.filter_cons_of_pos hs]
  constructor
  · rintro ⟨before, last, after, hsplit, hlast, hbefore⟩
    cases before with
    | nil =>
      obtain ⟨rfl, -⟩ := List.cons.inj hsplit
      exact .inl hlast
    | cons first before =>
      obtain ⟨rfl, hrest⟩ := List.cons.inj hsplit
      obtain ⟨hfirst, hbefore⟩ := List.forall_mem_cons.mp hbefore
      exact .inr ⟨hfirst, before, last, after, hrest, hlast, hbefore⟩
  · rintro (hexceeds | ⟨hfirst, before, last, after, hsplit, hlast, hbefore⟩)
    · exact ⟨[], sym, _, rfl, hexceeds, nofun⟩
    · exact ⟨sym :: before, last, after, congrArg (sym :: ·) hsplit, hlast,
        List.forall_mem_cons.mpr ⟨hfirst, hbefore⟩⟩

/-- The string step refuses exactly if it comes to a string that ends past the buffer. -/
theorem appendStrings_refused_iff (hsize : assembler.outputSize ≤ capacity) :
    (∃ assembler', appendStrings symbols assembler = .ok (false, assembler') ∧
      assembler'.outputSize ≤ capacity) ↔ Exceeds capacity symbols := by
  induction symbols generalizing assembler with
  | nil =>
    refine iff_of_false ?_ ?_
    · rintro ⟨assembler', h, -⟩
      cases h
    · rintro ⟨before, sym, after, hsplit, -⟩
      exact List.append_ne_nil_of_right_ne_nil before (List.cons_ne_nil sym after) hsplit.symm
  | cons sym symbols ih =>
    by_cases hs : sym.isString = true
    · rw [exceeds_cons hs]
      unfold appendStrings
      rw [if_pos hs]
      by_cases hexceeds : sym.endAddr.toNat > capacity * 4
      · rw [if_pos hexceeds]
        exact iff_of_true ⟨_, rfl, hsize⟩ (.inl hexceeds)
      · rw [if_neg hexceeds, or_iff_right hexceeds]
        by_cases hfits : 4 * sym.address.toNat + sym.text.length ≤ 4 * capacity
        · obtain ⟨buffer, hcopy⟩ := @CArray.memcpy_of_le _ assembler.outputBuffer _ _ hfits
          rw [hcopy, ok_bind]
          have hend : sym.endWord ≤ capacity := by
            unfold Symbol.endWord
            omega
          refine (ih ?_).trans (and_iff_right hfits).symm
          rw [outputSize_note]
          dsimp only
          split
          · exact hend
          · exact hsize
        · refine iff_of_false ?_ fun h => hfits h.1
          rintro ⟨assembler', h, -⟩
          obtain ⟨buffer, hcopy, -⟩ := bind_eq_ok h
          exact hfits ((CArray.memcpy_ok hcopy).1 (List.append_ne_nil_of_right_ne_nil _
            (List.cons_ne_nil _ _)))
    · rw [exceeds_cons_other hs]
      unfold appendStrings
      rw [if_neg hs]
      exact ih hsize

end strings

section refused

variable {input : List Byte} {start : DezAssembler capacity}

/-- The symbol table with the literals of a text, after its labels and constants. -/
def literalTable (table : SymbolTable) (input : List Byte) : SymbolTable :=
  (literals (sourceInstructions input)).foldl defineLiteral (sourceTable table input)

/-- `assembler_assemble_string` returns false. -/
def Refused (stale : ℕ → Word → ℕ → Word) (start : DezAssembler capacity) (input : List Byte) :
    Prop := ∃ assembler, assemblerAssembleString stale start input = .ok (false, assembler)

/-- An operand of the text names what is no system call and nowhere defined in it. -/
def NamesUndefined (input : List Byte) : Prop :=
  ∃ place inst, (place, inst) ∈ sourceReadings input ∧ ∃ j < inst.operands.length,
    (headLexeme (innerItems (operandItems j place.tail))).type = .identifier ∧
    systemCall (headLexeme (innerItems (operandItems j place.tail))).value.chars = none ∧
    ∀ line ∈ (readSource input).lines, ∀ number value,
      line ≠ .label (headLexeme (innerItems (operandItems j place.tail))).value number ∧
      line ≠ .constant (headLexeme (innerItems (operandItems j place.tail))).value value number

theorem readFront_of_le {a : CArray Word capacity} {count : ℕ} (h : count ≤ capacity) :
    a.readFront count = .ok (a.front count) := if_pos h

/-- Once a text is parsed only its strings can make it refused. -/
theorem strings_refused_iff {parser : Parser capacity} (hsize : parser.outputSize ≤ capacity)
    {before : DezAssembler capacity} (hbefore : before.outputSize = parser.outputSize) :
    (∃ assembler, (do
        let (success, assembler) ← appendStrings symbols before
        let words ← assembler.outputBuffer.readFront assembler.outputSize
        return (success, assembler.note
          [.completed, .symbols assembler.symbolTable.symbols, .generatedCode words]) :
        Except Fault (Bool × DezAssembler capacity)) = .ok (false, assembler)) ↔
      Exceeds capacity symbols := by
  rw [← appendStrings_refused_iff (hbefore.trans_le hsize)]
  constructor
  · rintro ⟨assembler, h⟩
    obtain ⟨⟨success, after⟩, happend, h⟩ := bind_eq_ok h
    obtain ⟨words, hwords, h⟩ := bind_eq_ok h
    cases h
    exact ⟨after, happend, (CArray.readFront_ok hwords).1⟩
  · rintro ⟨after, happend, hle⟩
    rw [happend, ok_bind]
    dsimp only
    rw [readFront_of_le hle, ok_bind]
    exact ⟨_, rfl⟩

/-- A text is refused exactly if it cannot be read, or there is no room for its instructions or its
strings. Whether the names in it are defined plays no part. -/
theorem assembleString_refused_iff (stale : ℕ → Word → ℕ → Word) (start : DezAssembler capacity)
    (input : List Byte) :
    Refused stale start input ↔
      (readSource input).ending = .failed ∨ capacity < (sourceInstructions input).length ∨
        Exceeds capacity (literalTable start.symbolTable input).symbols := by
  have hparse := parserParse_iff stale start.symbolTable start.outputBuffer input
  have hafter := @parserParse_eq capacity stale input start.symbolTable start.outputBuffer
  have hentries := (encodeAll_entries (stale 2) 0#32 (sourceInstructions input)
    ⟨rfl, rfl⟩ : SameEntries (sourceWords stale start.symbolTable input).2
      (literalTable start.symbolTable input)).1
  unfold Refused assemblerAssembleString
  simp only [symbolTable_note, outputBuffer_note]
  generalize parserParse stale (parserInit input start.symbolTable start.outputBuffer) = parsed at *
  obtain ⟨success, parser⟩ := parsed
  cases success with
  | false =>
    refine iff_of_true ⟨_, rfl⟩ ?_
    by_contra hno
    push Not at hno
    cases hparse.mpr ⟨hno.1, hno.2.1⟩
  | true =>
    obtain ⟨hread, hroom⟩ := hparse.mp rfl
    obtain ⟨-, htable, -, hsize⟩ := hafter rfl
    have hsymbols : parser.symbolTable.symbols = (literalTable start.symbolTable input).symbols :=
      (congrArg SymbolTable.symbols htable).trans hentries
    rw [or_iff_right hread, or_iff_right (Nat.not_lt.mpr hroom), ← hsymbols]
    exact strings_refused_iff (hsize.trans_le hroom) rfl

/-- `JMP NOWHERE` is assembled, as a jump to address 0. -/
theorem undefined_accepted :
    ¬ ∀ (capacity : ℕ) stale verbose (allocated : CArray Word capacity) input,
      NamesUndefined input → Refused stale (assemblerInit verbose allocated) input := by
  intro h
  have hundefined : NamesUndefined (bytes "JMP NOWHERE") := by
    refine ⟨textItems (bytes "JMP NOWHERE"), ⟨.jmp, [.label (.ofBytes 63 (bytes "NOWHERE"))]⟩,
      by decide, 0, by decide, by decide, by decide, ?_⟩
    have hlines : (readSource (bytes "JMP NOWHERE")).lines =
        [.instruction ⟨.jmp, [.label (.ofBytes 63 (bytes "NOWHERE"))]⟩] := by decide +kernel
    rw [hlines]
    intro line hline number value
    rw [List.mem_singleton.mp hline]
    exact ⟨nofun, nofun⟩
  obtain ⟨assembler, hrefused⟩ := h 1 (fun _ _ _ => 0) false (fun _ => 0) _ hundefined
  have haccepted : (assemblerAssembleString (fun _ _ _ => 0)
      (assemblerInit false fun _ : Fin 1 => 0) (bytes "JMP NOWHERE")).toOption.map Prod.fst =
        some true := by
    decide
  rw [hrefused] at haccepted
  cases haccepted

end refused

end Dez.Assembler
