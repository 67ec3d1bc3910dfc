import Dez.Assembler.Operand

/-! The parser of `dez_parser.c`: what it reads off the lexer, and what its passes do with it. -/
namespace Dez.Assembler

/-- The ends of a parsing function: a result, `return false` alone, or `return false` after
`parser_error` or `parser_expected`, which set `parser->error`. -/
inductive Outcome (α : Type)
  | ok (value : α) (lexer : Lexer)
  | stuck (lexer : Lexer)
  | fail (message : Message) (lexer : Lexer)

def Outcome.bind {α β : Type} (outcome : Outcome α) (f : α → Lexer → Outcome β) : Outcome β :=
  match outcome with
  | .ok value lexer => f value lexer
  | .stuck lexer => .stuck lexer
  | .fail message lexer => .fail message lexer

def parserCurrentToken (lexer : Lexer) : Token × Lexer := lexerPeekToken lexer

/-- It returns the current token too: nothing is read past it. -/
def parserPeekToken (lexer : Lexer) : Token × Lexer := lexerPeekToken lexer

def parserAdvance (lexer : Lexer) : Lexer := (lexerNextToken lexer).2

def parserExpectToken (lexer : Lexer) (expected : TokenType) : Bool × Lexer :=
  let (token, lexer) := parserCurrentToken lexer
  (token.type = expected, lexer)

def parserConsumeToken (lexer : Lexer) (expected : TokenType) : Bool × Lexer :=
  let (found, lexer) := parserExpectToken lexer expected
  if found then (true, parserAdvance lexer) else (false, lexer)

def parserError {α : Type} (lexer : Lexer) (message : String) : Outcome α :=
  let (token, lexer) := parserCurrentToken lexer
  .fail (.error token.line token.column message) lexer

def parserExpected {α : Type} (lexer : Lexer) (expected : String) : Outcome α :=
  let (token, lexer) := parserCurrentToken lexer
  .fail (.expected token.line token.column expected (tokenTypeToString token.type)) lexer

/-- The system call a name stands for in an operand. -/
def systemCall (name : List Byte) : Option Word :=
  if name = bytes "PRINT" then some 1
  else if name = bytes "PRINT_STR" then some 2
  else if name = bytes "PRINT_CHAR" then some 3
  else if name = bytes "EXIT" then some 6
  else none

/-- An identifier operand, plain or behind `#`: a system call or a label. -/
def namedOperand (name : CString 255) : Operand :=
  match systemCall name.chars with
  | some call => .immediate call
  | none => .label (name.copy 63)

/-- The operand in brackets. -/
def parserParseMemoryOperand (lexer : Lexer) : Outcome Operand :=
  let lexer := parserAdvance lexer
  let (token, lexer) := parserCurrentToken lexer
  let operand : Option Operand :=
    match token.type with
    | .number => some (.memory token.numValue)
    | .identifier => some (.memoryLabel (token.value.copy 63))
    | _ => none
  match operand with
  | none => parserExpected lexer "number or label"
  | some operand =>
    match parserConsumeToken (parserAdvance lexer) .rbracket with
    | (true, lexer) => .ok operand lexer
    | (false, lexer) => parserExpected lexer "]"

def parserParseOperand (lexer : Lexer) : Outcome Operand :=
  let (token, lexer) := parserCurrentToken lexer
  match token.type with
  | .register =>
    let number := registerNameToNumber token.value.chars
    .ok (.register ⟨number.toNat, registerNameToNumber_lt _⟩) (parserAdvance lexer)
  | .string => .ok (.string token.value) (parserAdvance lexer)
  | .number => .ok (.immediate token.numValue) (parserAdvance lexer)
  | .hash =>
    let (token, lexer) := parserCurrentToken (parserAdvance lexer)
    match token.type with
    | .number => .ok (.immediate token.numValue) (parserAdvance lexer)
    | .identifier => .ok (namedOperand token.value) (parserAdvance lexer)
    -- the tests below the `#` branch go on with the token behind it
    | .lbracket => parserParseMemoryOperand lexer
    | _ => parserExpected lexer "operand"
  | .lbracket => parserParseMemoryOperand lexer
  | .identifier => .ok (namedOperand token.value) (parserAdvance lexer)
  | _ => parserExpected lexer "operand"

/-- The operands from number `i` on, a comma before each but the first. -/
def parserParseOperands (i : ℕ) : ℕ → Lexer → Outcome (List Operand)
  | 0, lexer => .ok [] lexer
  | n + 1, lexer =>
    match if 0 < i then parserConsumeToken lexer .comma else (true, lexer) with
    | (false, lexer) => parserExpected lexer "comma"
    | (true, lexer) =>
      (parserParseOperand lexer).bind fun operand lexer =>
      (parserParseOperands (i + 1) n lexer).bind fun operands lexer =>
      .ok (operand :: operands) lexer

/-- The mnemonics, with the number of their operands. -/
def instructionNames : List (String × DezInstructionType × ℕ) :=
  [("MOV", .mov, 2), ("LOAD", .load, 2), ("STORE", .store, 2), ("ADD", .add, 3), ("SUB", .sub, 3),
    ("MUL", .mul, 3), ("DIV", .div, 3), ("JMP", .jmp, 1), ("JZ", .jz, 1), ("JNZ", .jnz, 1),
    ("JL", .jl, 1), ("JG", .jg, 1), ("JLE", .jle, 1), ("JGE", .jge, 1), ("PUSH", .push, 1),
    ("POP", .pop, 1), ("CMP", .cmp, 2), ("SYS", .sys, 2), ("AND", .and, 3), ("OR", .or, 3),
    ("XOR", .xor, 3), ("NOT", .not, 2), ("SHL", .shl, 3), ("SHR", .shr, 3), ("CALL", .call, 1),
    ("RET", .ret, 0), ("HALT", .halt, 0), ("INC", .inc, 1), ("DEC", .dec, 1),
    ("LOAD_INDIRECT", .loadIndirect, 2), ("STORE_INDIRECT", .storeIndirect, 2),
    ("LOAD_INDEXED", .loadIndexed, 3), ("STORE_INDEXED", .storeIndexed, 3), ("NOP", .nop, 0)]

def instructionNamed (name : List Byte) : Option (DezInstructionType × ℕ) :=
  (instructionNames.find? fun entry => bytes entry.1 = name).map Prod.snd

def parserParseInstruction (lexer : Lexer) : Outcome ParsedInstruction :=
  let (token, lexer) := parserCurrentToken lexer
  if token.type ≠ .identifier then .stuck lexer
  else
    match instructionNamed token.value.chars with
    | none => parserError lexer "Unknown instruction"
    | some (type, numOperands) =>
      (parserParseOperands 0 numOperands (parserAdvance lexer)).bind fun operands lexer =>
      .ok ⟨type, operands⟩ lexer

/-- What one line of the source is, the same in both passes. -/
inductive Line
  | blank
  | label (name : CString 255) (line : ℕ)
  | constant (name : CString 255) (value : Word) (line : ℕ)
  | instruction (inst : ParsedInstruction)
  deriving DecidableEq

def parserParseConstant (lexer : Lexer) : Outcome Line :=
  let (nameToken, lexer) := parserCurrentToken lexer
  let (found, lexer) := parserConsumeToken (parserAdvance lexer) .identifier
  let (token, lexer) := parserCurrentToken lexer
  if !found || token.value.chars ≠ bytes "EQU" then parserExpected lexer "EQU"
  else
    let (valueToken, lexer) := parserCurrentToken (parserAdvance lexer)
    if valueToken.type ≠ .number then parserExpected lexer "number"
    else .ok (.constant nameToken.value valueToken.numValue nameToken.line) (parserAdvance lexer)

/-- The line around the lexer's position, up to a comment, ends with a colon. -/
def endsWithColon (lexer : Lexer) : Bool :=
  let before := ((lexer.input.take lexer.position).reverse.takeWhile (· != newline)).reverse
  let after := lexer.rest.takeWhile fun c => c != 0#8 && c != newline && c != ch ';'
  let lineEnd := (before ++ after).reverse.dropWhile fun c => c = 0x20#8 || c = 0x09#8
  lineEnd.head? = some (ch ':')

/-- The characters the lexer has before it, the buffered token counting as one: every token read
makes it smaller. -/
def Lexer.left (lexer : Lexer) : ℕ :=
  lexer.rest.length + if lexer.hasToken && lexer.currentToken.type ≠ .eof then 1 else 0

/-- The loop that skips the rest of a label's line. -/
def skipLine : ℕ → Lexer → Lexer
  | 0, lexer => lexer
  | fuel + 1, lexer =>
    let (token, lexer) := parserCurrentToken lexer
    if token.type ≠ .newline ∧ token.type ≠ .eof then skipLine fuel (parserAdvance lexer) else lexer

/-- The reading half of `parser_parse_line_with_labels`. -/
def readLine (lexer : Lexer) : Outcome Line :=
  let (token, lexer) := parserCurrentToken lexer
  if token.type = .newline then .ok .blank (parserAdvance lexer)
  else if token.type = .comment then .ok .blank (parserAdvance lexer)
  else if token.type = .identifier ∧ endsWithColon lexer then
    .ok (.label token.value token.line) (skipLine (lexer.left + 1) lexer)
  else
    let (next, lexer) := if token.type = .identifier then parserPeekToken lexer else (token, lexer)
    if next.type = .identifier ∧ next.value.chars = bytes "EQU" then parserParseConstant lexer
    else (parserParseInstruction lexer).bind fun inst lexer => .ok (.instruction inst) lexer

/-- `parser_t`; the output's capacity is the size of its array. -/
structure Parser (capacity : ℕ) where
  lexer : Lexer
  symbolTable : SymbolTable
  output : CArray Word capacity
  outputSize : ℕ
  currentAddress : Word
  pass : ℕ
  error : Bool
  printed : List Message

variable {capacity : ℕ}

def parserInit (input : List Byte) (symbolTable : SymbolTable) (output : CArray Word capacity) :
    Parser capacity where
  lexer := lexerInit input
  symbolTable := symbolTable
  output := output
  outputSize := 0
  currentAddress := 0#32
  pass := 1
  error := false
  printed := []

namespace Parser

def print (parser : Parser capacity) (out : List Message) : Parser capacity :=
  { parser with printed := parser.printed ++ out }

/-- A parsing function's end, as far as the parser's own state goes. -/
def stop {α : Type} (parser : Parser capacity) : Outcome α → Parser capacity
  | .ok _ lexer => { parser with lexer := lexer }
  | .stuck lexer => { parser with lexer := lexer }
  | .fail message lexer => { parser with lexer := lexer, error := true }.print [message]

/-- What a symbol definition leaves; its result is not looked at. -/
def define (parser : Parser capacity) (result : Bool × SymbolTable × List Message) :
    Parser capacity :=
  { parser with symbolTable := result.2.1 }.print result.2.2

/-- Pass 2 encodes an instruction and appends the word. -/
def emit (stale : Word → ℕ → Word) (parser : Parser capacity) (inst : ParsedInstruction) :
    Bool × Parser capacity :=
  let (encoded, symbolTable, out) :=
    parserEncodeInstruction (stale parser.currentAddress) parser.symbolTable inst
  let parser := { parser with symbolTable := symbolTable }.print out
  if h : parser.outputSize < capacity then
    (true, { parser with
      output := parser.output.set ⟨parser.outputSize, h⟩ encoded
      outputSize := parser.outputSize + 1 })
  else (false, parser.stop (parserError (α := Unit) parser.lexer "Output buffer overflow"))

/-- The half of `parser_parse_line_with_labels` that depends on the pass. -/
def perform (stale : Word → ℕ → Word) (parser : Parser capacity) : Line → Bool × Parser capacity
  | .blank => (true, parser)
  | .label name line =>
    (true, if parser.pass = 1 then
        parser.define (symbolTableDefine parser.symbolTable name.chars parser.currentAddress line)
      else parser)
  | .constant name value line =>
    (true, if parser.pass = 1 then
        parser.define (symbolTableDefineConstant parser.symbolTable name.chars value line)
      else parser)
  | .instruction inst =>
    let (done, parser) := if parser.pass = 2 then parser.emit stale inst else (true, parser)
    (done, if done then { parser with currentAddress := parser.currentAddress + 1#32 } else parser)

end Parser

/-- `parser_parse_line_with_labels`. Reading a line moves the lexer only and performing it leaves
the lexer alone, so the one can be done before the other. -/
def parserParseLineWithLabels (stale : Word → ℕ → Word) (parser : Parser capacity) :
    Bool × Parser capacity :=
  let outcome := readLine parser.lexer
  match outcome with
  | .ok line _ => (parser.stop outcome).perform stale line
  | _ => (false, parser.stop outcome)

/-- The loop of one pass. -/
def parserPass (stale : Word → ℕ → Word) : ℕ → Parser capacity → Parser capacity
  | 0, parser => parser
  | fuel + 1, parser =>
    if parser.error then parser
    else
      let (token, lexer) := parserCurrentToken parser.lexer
      let parser := { parser with lexer := lexer }
      if token.type = .eof then parser
      else
        let (done, parser) := parserParseLineWithLabels stale parser
        if done then parserPass stale fuel parser else parser

/-- Every line takes a token, so the characters left bound the lines of a pass. -/
def runPass (stale : ℕ → Word → ℕ → Word) (parser : Parser capacity) : Parser capacity :=
  parserPass (stale parser.pass) (parser.lexer.left + 1) parser

/-- The first pass of `parser_parse`. -/
def firstPass (stale : ℕ → Word → ℕ → Word) (parser : Parser capacity) : Parser capacity :=
  runPass stale { parser with pass := 1 }

/-- The second pass, over the same input from its start. -/
def secondPass (stale : ℕ → Word → ℕ → Word) (parser : Parser capacity) : Parser capacity :=
  runPass stale { parser with
    pass := 2, currentAddress := 0#32, outputSize := 0, lexer := lexerInit parser.lexer.input }

def parserParse (stale : ℕ → Word → ℕ → Word) (parser : Parser capacity) : Bool × Parser capacity :=
  let parser := firstPass stale parser
  if parser.error then (false, parser)
  else
    let parser := secondPass stale parser
    (!parser.error, parser)

end Dez.Assembler
