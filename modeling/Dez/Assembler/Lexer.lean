import Dez.CString

/-! The lexer of `dez_lexer.c`. -/
namespace Dez.Assembler

/-- `token_type_t` -/
inductive TokenType
  | eof | newline | identifier | number | string | register
  | comma | colon | hash | lbracket | rbracket | comment | unknown
  deriving DecidableEq, Repr

def tokenTypeToString : TokenType → String
  | .eof => "EOF"
  | .newline => "NEWLINE"
  | .identifier => "IDENTIFIER"
  | .number => "NUMBER"
  | .string => "STRING"
  | .register => "REGISTER"
  | .comma => "COMMA"
  | .colon => "COLON"
  | .hash => "HASH"
  | .lbracket => "LBRACKET"
  | .rbracket => "RBRACKET"
  | .comment => "COMMENT"
  | .unknown => "UNKNOWN"

/-- `token_t` -/
structure Token where
  type : TokenType
  value : CString 255
  numValue : Word
  line : ℕ
  column : ℕ
  deriving DecidableEq

/-- `lexer_t`; the input is read as a C string, so it ends at its first NUL. -/
structure Lexer where
  input : List Byte
  position : ℕ
  line : ℕ
  column : ℕ
  currentToken : Token
  hasToken : Bool

def lexerInit (input : List Byte) : Lexer where
  input := input
  position := 0
  line := 1
  column := 1
  currentToken := { type := .eof, value := .ofBytes 255 [], numValue := 0, line := 0, column := 0 }
  hasToken := false

def newline : Byte := 0x0A#8
def quote : Byte := 0x22#8

def lexerIsAlpha (c : Byte) : Bool :=
  (65 ≤ c.toNat && c.toNat ≤ 90) || c.toNat = 95 || (97 ≤ c.toNat && c.toNat ≤ 122)

def lexerIsDigit (c : Byte) : Bool := 48 ≤ c.toNat && c.toNat ≤ 57

def lexerIsAlnum (c : Byte) : Bool := lexerIsAlpha c || lexerIsDigit c

def lexerIsWhitespace (c : Byte) : Bool := c = 0x20#8 || c = 0x09#8 || c = 0x0D#8

def isHexDigit (c : Byte) : Bool :=
  lexerIsDigit c || (65 ≤ c.toNat && c.toNat ≤ 70) || (97 ≤ c.toNat && c.toNat ≤ 102)

def isBinDigit (c : Byte) : Bool := c = ch '0' || c = ch '1'

def isRegisterToken : List Byte → Bool
  | [r, d] => r = ch 'R' && lexerIsDigit d
  | [r, t, d] => r = ch 'R' && t = ch '1' && (48 ≤ d.toNat && d.toNat ≤ 53)
  | _ => false

def registerNameToNumber (name : List Byte) : Byte :=
  if isRegisterToken name then
    match name with
    | [_, d] => d - ch '0'
    | [_, _, d] => 10 + (d - ch '0')
    | _ => 0
  else 0

theorem registerNameToNumber_lt (name : List Byte) : (registerNameToNumber name).toNat < 16 := by
  unfold registerNameToNumber
  split
  · rename_i h
    match name, h with
    | [_, d], h =>
      simp only [isRegisterToken, lexerIsDigit, Bool.and_eq_true, decide_eq_true_eq] at h
      have h0 : (ch '0').toNat = 48 := rfl
      rw [BitVec.toNat_sub, h0]
      omega
    | [_, _, d], h =>
      simp only [isRegisterToken, Bool.and_eq_true, decide_eq_true_eq] at h
      have h0 : (ch '0').toNat = 48 := rfl
      rw [BitVec.toNat_add, BitVec.toNat_sub, h0, show (10 : Byte).toNat = 10 from rfl]
      omega
    | [], h | [_], h | _ :: _ :: _ :: _ :: _, h => simp
  · simp

/-- The value of a digit of any base up to 16. -/
def digitValue (c : Byte) : ℕ :=
  if c.toNat ≤ 57 then c.toNat - 48 else if c.toNat ≤ 70 then c.toNat - 55 else c.toNat - 87

/-- `(uint32_t)strtoul(digits, NULL, base)` with a 64-bit `unsigned long`, which saturates. -/
def strtoul (digits : List Byte) (base : ℕ) : Word :=
  BitVec.ofNat 32 (min (digits.foldl (fun n c => n * base + digitValue c) 0) (2 ^ 64 - 1))

/-- What the front of the remaining text is: its type, text and number, and its length there. -/
structure Scanned where
  type : TokenType
  text : List Byte
  number : Word
  length : ℕ

/-- A number behind a two-character prefix. -/
def scanPrefixed (c mark : Byte) (digit : Byte → Bool) (base : ℕ) (rest : List Byte) : Scanned :=
  let digits := (rest.takeWhile digit).take 253
  ⟨.number, c :: mark :: digits, strtoul digits base, 2 + digits.length⟩

/-- The tokens of one character. -/
def punctuation (c : Byte) : Option TokenType :=
  if c = newline then some .newline
  else if c = ch ',' then some .comma
  else if c = ch ':' then some .colon
  else if c = ch '#' then some .hash
  else if c = ch '[' then some .lbracket
  else if c = ch ']' then some .rbracket
  else none

/-- A string, once its opening quote is read. -/
def scanString (rest : List Byte) : Scanned :=
  let text := (rest.takeWhile fun d => d != 0#8 && d != quote).take 255
  if (rest.drop text.length).headD 0#8 = quote then ⟨.string, text, 0, text.length + 2⟩
  else ⟨.unknown, text, 0, text.length + 1⟩

def scanNumber (c : Byte) (rest : List Byte) : Scanned :=
  if c = ch '0' && rest.headD 0#8 = ch 'x' then scanPrefixed c (ch 'x') isHexDigit 16 rest.tail
  else if c = ch '0' && rest.headD 0#8 = ch 'b' then scanPrefixed c (ch 'b') isBinDigit 2 rest.tail
  else
    let digits := ((c :: rest).takeWhile lexerIsDigit).take 255
    ⟨.number, digits, strtoul digits 10, digits.length⟩

/-- An identifier or a register. -/
def scanName (c : Byte) (rest : List Byte) : Scanned :=
  let text := ((c :: rest).takeWhile lexerIsAlnum).take 255
  ⟨if isRegisterToken text then .register else .identifier, text, 0, text.length⟩

/-- The branches of `lexer_next_token` on the first character. -/
def scanToken : List Byte → Scanned
  | [] => ⟨.eof, [], 0, 0⟩
  | c :: rest =>
    if c = 0#8 then ⟨.eof, [], 0, 0⟩
    else
      match punctuation c with
      | some type => ⟨type, [c], 0, 1⟩
      | none =>
        if c = ch ';' then
          ⟨.comment, [c], 0, 1 + (rest.takeWhile fun d => d != 0#8 && d != newline).length⟩
        else if c = quote then scanString rest
        else if lexerIsDigit c then scanNumber c rest
        else if lexerIsAlpha c then scanName c rest
        else ⟨.unknown, [c], 0, 1⟩

namespace Lexer

/-- The text from the current position on. -/
def rest (lexer : Lexer) : List Byte := lexer.input.drop lexer.position

/-- Characters of the current line passed over. -/
def skip (lexer : Lexer) (n : ℕ) : Lexer :=
  { lexer with position := lexer.position + n, column := lexer.column + n }

end Lexer

def lexerSkipComment (lexer : Lexer) : Lexer :=
  lexer.skip (lexer.rest.takeWhile fun c => c != 0#8 && c != newline).length

/-- Blanks, then a comment: it ends where the loop stops, at a newline or at the end. -/
def lexerSkipWhitespace (lexer : Lexer) : Lexer :=
  let lexer := lexer.skip (lexer.rest.takeWhile lexerIsWhitespace).length
  if lexer.rest.headD 0#8 = ch ';' then lexerSkipComment lexer else lexer

def lexerNextToken (lexer : Lexer) : Token × Lexer :=
  if lexer.hasToken then (lexer.currentToken, { lexer with hasToken := false })
  else
    let lexer := lexerSkipWhitespace lexer
    let scanned := scanToken lexer.rest
    let token : Token :=
      { type := scanned.type, value := .ofBytes 255 scanned.text, numValue := scanned.number,
        line := lexer.line, column := lexer.column }
    if scanned.type = .newline then
      (token, { lexer with position := lexer.position + 1, line := lexer.line + 1, column := 1 })
    else (token, lexer.skip scanned.length)

def lexerPeekToken (lexer : Lexer) : Token × Lexer :=
  if lexer.hasToken then (lexer.currentToken, lexer)
  else
    let (token, lexer) := lexerNextToken lexer
    (token, { lexer with currentToken := token, hasToken := true })

end Dez.Assembler
