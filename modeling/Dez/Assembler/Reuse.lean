import Dez.TwoRuns
import Dez.Assembler.Cache
import Dez.Assembler.Determinism
import Dez.Assembler.Layout
import Dez.Assembler.Leftovers

/-! Two texts assembled one after the other with the same assembler. -/
namespace Dez.Assembler

variable {capacity : ℕ} {input : List Byte} {table : SymbolTable}

section secondPass

variable {stale : Word → ℕ → Word} {parser : Parser capacity} {p : SymbolTable → Prop}

end secondPass

section parse

variable {stale : ℕ → Word → ℕ → Word} {p : SymbolTable → Prop}

end parse

section strings

variable {n : ℕ} {a b c : DezAssembler capacity} {left symbols : List Symbol}

/-- Two assemblers agree on the size and on the first words. -/
structure SameWords (n : ℕ) (a b : DezAssembler capacity) : Prop where
  words : CArray.SameFront n a.outputBuffer b.outputBuffer
  size : a.outputSize = b.outputSize

theorem SameWords.trans (h : SameWords n a b) (h' : SameWords n b c) : SameWords n a c :=
  ⟨fun i hi => (h.words i hi).trans (h'.words i hi), h.size.trans h'.size⟩

theorem SameWords.note (h : SameWords n a b) (out out' : List Message) :
    SameWords n (a.note out) (b.note out') := by
  constructor
  · rw [outputBuffer_note, outputBuffer_note]
    exact h.words
  · rw [outputSize_note, outputSize_note]
    exact h.size

end strings

section two

variable {stale : ℕ → Word → ℕ → Word} {start start' : DezAssembler capacity}
  {left : List Symbol}

end two

section apart

variable {stale : ℕ → Word → ℕ → Word} {start start' : DezAssembler capacity}

/-- A table stands in front of an empty one, if its cache points into it. -/
theorem SymbolTable.Pointing.below (h : table.Pointing) :
    Below table.symbols (table.nextStringAddr - 0x100#32) table symbolTableInit := by
  refine ⟨(List.append_nil _).symm, (BitVec.sub_add_cancel _ _).symm, fun hash => ?_⟩
  cases hi : table.hashTable hash with
  | none => exact .inl rfl
  | some i => exact .inr ⟨rfl, i, h hash i hi, rfl⟩

end apart

section first

variable {success : Bool} {start left : DezAssembler capacity} {symbols : List Symbol}
  {stale : ℕ → Word → ℕ → Word}

end first

end Dez.Assembler
