import Dez.Assembler.Symbols
import Dez.Execution.Words
import Dez.Semantics.Refinement

/-! What a source line means, and that the machine takes its word for just that. -/
namespace Dez.Semantics
open Assembler Execution

variable {α β γ : Type} {operands : List Operand} {v w low : Word}

/-- What the names and the string literals of a text stand for. -/
structure Names where
  name : CString 63 → Option Word
  literal : CString 255 → Option Word

/-- A number that fits its field. -/
def fits (bound : ℕ) (v : Word) : Option Word := if v.toNat < bound then some v else none

section operands

variable (names : Names)

def register : Operand → Option (Fin 16)
  | .register r => some r
  | _ => none

/-- A number, or a name for one. -/
def target : Operand → Option Word
  | .immediate v => fits 4096 v
  | .label name => (names.name name).bind (fits 4096)
  | _ => none

def pair (f : Operand → Option α) (g : Operand → Option β) : List Operand → Option (α × β)
  | [a, b] => (f a).bind fun x => (g b).map fun y => (x, y)
  | _ => none

end operands

section inversions

variable {bound : ℕ} {operand : Operand} {r : Fin 16} {f : Operand → Option α}
  {g : Operand → Option β} {h : Operand → Option γ} {x : α} {y : β} {z : γ}

end inversions

section words

variable {type : DezInstructionType} {r a b : Fin 16}

end words

section encode

variable {names : Names} {table : SymbolTable} {inst : ParsedInstruction} {stale : ℕ → Word}
  {operand : Operand} {instr : Instr} {type : DezInstructionType}

/-- The symbol table has for each name and for the instruction's literal what they stand for. -/
structure Agrees (names : Names) (table : SymbolTable) (inst : ParsedInstruction) : Prop where
  name : ∀ name v, names.name name = some v → (addressOf table name).1 = v
  literal : ∀ text v, inst.literal = some text → names.literal text = some v →
    (stringAddress table text).1 = v

end encode

end Dez.Semantics
