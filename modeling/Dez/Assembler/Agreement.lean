import Dez.Assembler.Symbols

/-! The two passes of `parser_parse` agree on the addresses. -/
namespace Dez.Assembler
variable {capacity : ℕ} {stale : Word → ℕ → Word} {parser : Parser capacity} {lexer : Lexer}
  {lines : List Line} {symbol : Symbol}

namespace Parser

end Parser

section passes

variable (stale : ℕ → Word → ℕ → Word) {input : List Byte} {table : SymbolTable}
  (output : CArray Word capacity)

end passes

end Dez.Assembler
