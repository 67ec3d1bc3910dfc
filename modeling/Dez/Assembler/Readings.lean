import Dez.Assembler.Lines

/-! Where in a text the instructions and their operands begin. -/
namespace Dez.Assembler

/-- The instructions, each with the tokens from its mnemonic on. -/
def readingsOf : ℕ → List Item → List (List Item × ParsedInstruction)
  | 0, _ => []
  | fuel + 1, items =>
    if (headLexeme items).type = .eof then []
    else
      match lineOf items with
      | .ok (.instruction inst) rest => (items, inst) :: readingsOf fuel rest
      | .ok _ rest => readingsOf fuel rest
      | .stuck => []
      | .fail => []

/-- The instructions of a text, each with the tokens it begins at. -/
def sourceReadings (input : List Byte) : List (List Item × ParsedInstruction) :=
  readingsOf (input.length + 1) (textItems input)

/-- The tokens operand `j` begins at, given those behind the mnemonic. -/
def operandItems : ℕ → List Item → List Item
  | 0, items => items
  | j + 1, items =>
    match operandOf items with
    | .ok _ rest => operandItems j rest.tail
    | .stuck => []
    | .fail => []

/-- Behind a `#`. -/
def behindHash (items : List Item) : List Item :=
  if (headLexeme items).type = .hash then items.tail else items

/-- An operand in brackets. -/
def bracketed (items : List Item) : Bool := (headLexeme (behindHash items)).type = .lbracket

/-- The tokens from an operand's number or name on, be it plain, behind `#` or in brackets. -/
def innerItems (items : List Item) : List Item :=
  if bracketed items then (behindHash items).tail else behindHash items

variable {fuel : ℕ} {items place rest : List Item} {inst : ParsedInstruction} {input : List Byte}

section text

variable {text : List Byte} {number : ℕ}

/-- A line leaves tokens of the text behind it. -/
theorem lineOf_suffix {line : Line} (h : lineOf items = .ok line rest) : rest <:+ items := by
  cases lineOf_ok h with
  | blank => exact List.tail_suffix items
  | label => exact List.dropWhile_suffix _
  | constant _ _ _ hread => exact (constantOf_ok hread).2
  | instruction _ _ _ hread =>
    obtain ⟨used, rfl, -⟩ := instructionOf_takes hread
    exact List.suffix_append used rest

/-- Tokens at the end of a text are the tokens of a text at its end. -/
theorem itemsFrom_suffix (h : rest <:+ itemsFrom number text) :
    ∃ line behind, behind <:+ text ∧ rest = itemsFrom line behind := by
  induction hn : text.length using Nat.strong_induction_on generalizing number text with
  | _ n ih =>
    have hmem := skipBlanks_suffix text
    rw [itemsFrom_eq] at h
    dsimp only at h
    split at h
    · rename_i heof
      rw [List.suffix_nil] at h
      refine ⟨number, text, List.suffix_refl _, ?_⟩
      rw [itemsFrom_eq, if_pos heof, h]
    · rename_i heof
      rcases List.suffix_cons_iff.mp h with heq | hbehind
      · refine ⟨number, text, List.suffix_refl _, ?_⟩
        rw [itemsFrom_eq, if_neg heof, heq]
      · obtain ⟨line, behind, hsuffix, hrest⟩ := ih _ (hn ▸ length_behind heof) hbehind rfl
        exact ⟨line, behind, hsuffix.trans ((List.drop_suffix _ _).trans hmem), hrest⟩

end text

end Dez.Assembler
