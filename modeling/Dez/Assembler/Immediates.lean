import Dez.Assembler.Encoding
import Dez.Assembler.Readings

/-! Numbers of the source, and what the machine reads of them. -/
namespace Dez.Assembler

section numeral

/-- A number as it is spelled: all its digits, with the length of the prefix that gives the base. -/
structure Numeral where
  base : ℕ
  mark : ℕ
  digits : List Byte

/-- The number digits stand for behind others. -/
def digitsFrom (base n : ℕ) (digits : List Byte) : ℕ :=
  digits.foldl (fun n c => n * base + digitValue c) n

namespace Numeral

def value (numeral : Numeral) : ℕ := digitsFrom numeral.base 0 numeral.digits

def length (numeral : Numeral) : ℕ := numeral.mark + numeral.digits.length

end Numeral

variable {text : List Byte}

end numeral

section operand

variable {items rest : List Item} {operand : Operand}

/-- A `#` in front of a number or a bracket changes nothing. -/
theorem operandOf_behindHash (h : (headLexeme (behindHash items)).type = .number ∨
    (headLexeme (behindHash items)).type = .lbracket) :
    operandOf items = operandOf (behindHash items) := by
  unfold behindHash at *
  by_cases hhash : (headLexeme items).type = .hash
  · rw [if_pos hhash] at h ⊢
    unfold operandOf
    dsimp only
    rw [hhash]
    rcases h with h | h
    · simp only [h]
    · simp only [h]
  · rw [if_neg hhash]

theorem memoryOperandOf_number (h : memoryOperandOf items = .ok operand rest)
    (hnumber : (headLexeme items.tail).type = .number) :
    operand = .memory (headLexeme items.tail).numValue := by
  unfold memoryOperandOf at h
  simp only [hnumber] at h
  split at h
  · exact (Parse.ok.inj h).1.symm
  · cases h

/-- An operand that holds a number. -/
theorem operandOf_number (h : operandOf items = .ok operand rest)
    (hnumber : (headLexeme (innerItems items)).type = .number) :
    operand = if bracketed items then .memory (headLexeme (innerItems items)).numValue
      else .immediate (headLexeme (innerItems items)).numValue := by
  unfold innerItems at *
  cases hb : bracketed items with
  | true =>
    have hbracket : (headLexeme (behindHash items)).type = .lbracket := of_decide_eq_true hb
    rw [hb, if_pos rfl] at hnumber
    rw [operandOf_behindHash (.inr hbracket)] at h
    unfold operandOf at h
    simp only [hbracket] at h
    exact memoryOperandOf_number h hnumber
  | false =>
    rw [hb, if_neg Bool.false_ne_true] at hnumber
    rw [operandOf_behindHash (.inl hnumber)] at h
    unfold operandOf at h
    simp only [hnumber] at h
    exact (Parse.ok.inj h).1.symm

end operand

section word

variable (type : DezInstructionType) (reg1 reg2 reg3 : Byte) (v : Word)

end word

section fits

/-- How many bits of a word hold the number. -/
def numberBits (type : DezInstructionType) : ℕ := if type ∈ [.add, .sub, .mul, .div] then 11 else 12

/-- A number that fits its bits and the lexer's buffer. In brackets it is none to the arithmetic
instructions, and `CMP` takes it for a register. -/
structure Fits (type : DezInstructionType) (brackets : Bool) (numeral : Numeral) : Prop where
  bits : numeral.value < 2 ^ numberBits type
  buffer : numeral.length ≤ 255 ∨ numeral.value = 0
  arithmetic : brackets = true → type ∉ [.add, .sub, .mul, .div]
  compared : brackets = true → type = .cmp → numeral.value = 0

variable {inst : ParsedInstruction} {j : ℕ} {v : Word} {numeral : Numeral} {brackets : Bool}
  {stale : ℕ → Word} {table : SymbolTable}

end fits

section source

variable {capacity : ℕ} {place : List Item} {inst : ParsedInstruction} {input text : List Byte}
  {j number : ℕ}

end source

end Dez.Assembler
