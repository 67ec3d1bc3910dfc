import Dez.Arrays
import Dez.Assembler.Tokens

/-! The lexer's loops one character after the other, every access and every `int` checked. -/
namespace Dez.Assembler

/-- What C leaves undefined in the lexer: reading behind the terminating NUL, and counting an `int`
past its largest value. -/
inductive ScanFault
  | behindEnd (index : ℕ)
  | intOverflow
  deriving DecidableEq

/-- `i + 1` for an `int` -/
def addOne (i : ℕ) : Except ScanFault ℕ :=
  if i + 1 < 2 ^ 31 then .ok (i + 1) else .error .intOverflow

namespace Checked

/-- `input[i]` -/
def charAt (lexer : Lexer) (i : ℕ) : Except ScanFault Byte :=
  if h : i < lexer.input.length then .ok lexer.input[i]
  else if i = lexer.input.length then .ok 0#8
  else .error (.behindEnd i)

/-- `position++; column++` -/
def step (lexer : Lexer) : Except ScanFault Lexer := do
  let position ← addOne lexer.position
  let column ← addOne lexer.column
  .ok { lexer with position := position, column := column }

theorem addOne_ok {i j : ℕ} (h : addOne i = .ok j) : j = i + 1 ∧ j < 2 ^ 31 := by
  unfold addOne at h
  split at h
  · cases h
    exact ⟨rfl, ‹_›⟩
  · cases h

theorem charAt_ok {lexer : Lexer} {i : ℕ} {c : Byte} (h : charAt lexer i = .ok c) :
    i ≤ lexer.input.length ∧ (lexer.input.drop i).headD 0#8 = c := by
  unfold charAt at h
  split_ifs at h with hlt heq
  · cases h
    refine ⟨hlt.le, ?_⟩
    rw [List.drop_eq_getElem_cons hlt, List.headD_cons]
  · cases h
    refine ⟨heq.le, ?_⟩
    rw [List.drop_of_length_le heq.ge, List.headD_nil]

theorem step_ok {lexer next : Lexer} (h : step lexer = .ok next) :
    next = lexer.skip 1 ∧ next.position < 2 ^ 31 ∧ next.column < 2 ^ 31 := by
  obtain ⟨position, hp, h⟩ := bind_eq_ok h
  obtain ⟨column, hc, h⟩ := bind_eq_ok h
  obtain ⟨rfl, hposition⟩ := addOne_ok hp
  obtain ⟨rfl, hcolumn⟩ := addOne_ok hc
  cases h
  exact ⟨rfl, hposition, hcolumn⟩

/-- A loop over the characters that pass a test. -/
def stepWhile (test : Byte → Bool) (lexer : Lexer) : Except ScanFault Lexer :=
  match _hc : charAt lexer lexer.position with
  | .error fault => .error fault
  | .ok c =>
    if test c then
      match _hs : step lexer with
      | .error fault => .error fault
      | .ok next => stepWhile test next
    else .ok lexer
termination_by lexer.input.length + 1 - lexer.position
decreasing_by
  obtain ⟨rfl, -, -⟩ := step_ok _hs
  have hle := (charAt_ok _hc).1
  simp only [Lexer.skip]
  omega

def lexerSkipComment (lexer : Lexer) : Except ScanFault Lexer :=
  stepWhile (fun c => c != 0#8 && c != newline) lexer

theorem stepWhile_forward (test : Byte → Bool) {lexer last : Lexer}
    (h : stepWhile test lexer = .ok last) :
    last.input = lexer.input ∧ lexer.position ≤ last.position ∧
      (test (lexer.rest.headD 0#8) = true → lexer.position < last.position) := by
  induction hn : lexer.input.length + 1 - lexer.position using Nat.strong_induction_on
    generalizing lexer with
  | _ n ih =>
    rw [stepWhile] at h
    split at h
    · cases h
    · rename_i c hc
      obtain ⟨hle, hhead⟩ := charAt_ok hc
      rw [Lexer.rest, hhead]
      split at h
      · split at h
        · cases h
        · rename_i next hs
          obtain ⟨rfl, -, -⟩ := step_ok hs
          have hnext := ih _ (by simp only [Lexer.skip] at *; omega) h rfl
          simp only [Lexer.skip] at hnext
          exact ⟨hnext.1, by omega, fun _ => by omega⟩
      · cases h
        exact ⟨rfl, le_rfl, fun htest => absurd htest ‹_›⟩

def lexerSkipWhitespace (lexer : Lexer) : Except ScanFault Lexer :=
  match _hc : charAt lexer lexer.position with
  | .error fault => .error fault
  | .ok c =>
    if c = 0#8 then .ok lexer
    else if lexerIsWhitespace c then
      match _hs : step lexer with
      | .error fault => .error fault
      | .ok next => lexerSkipWhitespace next
    else if c = ch ';' then
      match _hs : lexerSkipComment lexer with
      | .error fault => .error fault
      | .ok next => lexerSkipWhitespace next
    else .ok lexer
termination_by lexer.input.length + 1 - lexer.position
decreasing_by
  · obtain ⟨rfl, -, -⟩ := step_ok _hs
    have hle := (charAt_ok _hc).1
    simp only [Lexer.skip]
    omega
  · obtain ⟨hle, hhead⟩ := charAt_ok _hc
    obtain ⟨hinput, -, hlt⟩ := stepWhile_forward _ _hs
    have hmoved := hlt (by
      rw [Lexer.rest, hhead, ‹c = ch ';'›]
      decide)
    rw [hinput]
    omega

/-- A loop that copies characters to the token's text, which has room for so many more. -/
def copyWhile (test : Byte → Bool) : ℕ → Lexer → Except ScanFault (List Byte × Lexer)
  | 0, lexer => do
    -- the character is read before the room is looked at
    let _ ← charAt lexer lexer.position
    .ok ([], lexer)
  | room + 1, lexer => do
    let c ← charAt lexer lexer.position
    if test c then
      let next ← step lexer
      let (text, last) ← copyWhile test room next
      .ok (c :: text, last)
    else .ok ([], lexer)

/-- The loop over the digits behind a prefix; it compares with `(int)strlen(input)`. -/
def copyDigits (test : Byte → Bool) : ℕ → Lexer → Except ScanFault (List Byte × Lexer)
  | 0, lexer => .ok ([], lexer)
  | room + 1, lexer =>
    if (lexer.position : ℤ) < (BitVec.ofNat 32 lexer.input.length).toInt then do
      let c ← charAt lexer lexer.position
      if test c then
        let next ← step lexer
        let (text, last) ← copyDigits test room next
        .ok (c :: text, last)
      else .ok ([], lexer)
    else .ok ([], lexer)

/-- A number behind a two-character prefix. -/
def scanPrefixed (c mark : Byte) (digit : Byte → Bool) (base : ℕ) (lexer : Lexer) :
    Except ScanFault (Scanned × Lexer) := do
  let lexer ← step lexer
  let lexer ← step lexer
  let (digits, lexer) ← copyDigits digit 253 lexer
  .ok (⟨.number, c :: mark :: digits, strtoul digits base, 2 + digits.length⟩, lexer)

/-- `input[position + 1]`, which is looked at behind a `0` only. -/
def charBehindZero (c : Byte) (lexer : Lexer) : Except ScanFault Byte :=
  if c = ch '0' then do charAt lexer (← addOne lexer.position) else .ok 0#8

def scanNumber (c : Byte) (lexer : Lexer) : Except ScanFault (Scanned × Lexer) := do
  let mark ← charBehindZero c lexer
  if mark = ch 'x' then scanPrefixed c mark isHexDigit 16 lexer
  else if mark = ch 'b' then scanPrefixed c mark isBinDigit 2 lexer
  else
    let (digits, lexer) ← copyWhile lexerIsDigit 255 lexer
    .ok (⟨.number, digits, strtoul digits 10, digits.length⟩, lexer)

def scanString (lexer : Lexer) : Except ScanFault (Scanned × Lexer) := do
  let lexer ← step lexer
  let (text, lexer) ← copyWhile (fun d => d != 0#8 && d != quote) 255 lexer
  let c ← charAt lexer lexer.position
  if c = quote then
    let lexer ← step lexer
    .ok (⟨.string, text, 0, text.length + 2⟩, lexer)
  else .ok (⟨.unknown, text, 0, text.length + 1⟩, lexer)

def scanName (lexer : Lexer) : Except ScanFault (Scanned × Lexer) := do
  let (text, lexer) ← copyWhile lexerIsAlnum 255 lexer
  .ok (⟨if isRegisterToken text then .register else .identifier, text, 0, text.length⟩, lexer)

/-- The branches of `lexer_next_token` on the first character, and where they leave the lexer. -/
def scanToken (lexer : Lexer) : Except ScanFault (Scanned × Lexer) := do
  let c ← charAt lexer lexer.position
  if c = 0#8 then .ok (⟨.eof, [], 0, 0⟩, lexer)
  else if c = newline then
    let position ← addOne lexer.position
    let line ← addOne lexer.line
    .ok (⟨.newline, [c], 0, 1⟩, { lexer with position := position, line := line, column := 1 })
  else
    match punctuation c with
    | some type => .ok (⟨type, [c], 0, 1⟩, ← step lexer)
    | none =>
      if c = ch ';' then
        let last ← lexerSkipComment (← step lexer)
        .ok (⟨.comment, [c], 0, last.position - lexer.position⟩, last)
      else if c = quote then scanString lexer
      else if lexerIsDigit c then scanNumber c lexer
      else if lexerIsAlpha c then scanName lexer
      else .ok (⟨.unknown, [c], 0, 1⟩, ← step lexer)

def lexerNextToken (lexer : Lexer) : Except ScanFault (Token × Lexer) :=
  if lexer.hasToken then .ok (lexer.currentToken, { lexer with hasToken := false })
  else do
    let lexer ← lexerSkipWhitespace lexer
    let (scanned, last) ← scanToken lexer
    let token : Token :=
      { type := scanned.type, value := .ofBytes 255 scanned.text, numValue := scanned.number,
        line := lexer.line, column := lexer.column }
    .ok (token, last)

/-- The start of the line, looked for backwards. -/
def lineStart (lexer : Lexer) : ℕ → Except ScanFault ℕ
  | 0 => .ok 0
  | i + 1 => do
    let c ← charAt lexer i
    if c != newline then lineStart lexer i else .ok (i + 1)

/-- The end of the line or the start of its comment. -/
def lineEnd (lexer : Lexer) (i : ℕ) : Except ScanFault ℕ :=
  match _hc : charAt lexer i with
  | .error fault => .error fault
  | .ok c =>
    if c != 0#8 && c != newline && c != ch ';' then
      match _hs : addOne i with
      | .error fault => .error fault
      | .ok j => lineEnd lexer j
    else .ok i
termination_by lexer.input.length + 1 - i
decreasing_by
  obtain ⟨rfl, -⟩ := addOne_ok _hs
  have hle := (charAt_ok _hc).1
  omega

/-- The loop over trailing blanks and the look at what stands before them; `colon_pos` is one less
than the argument. -/
def colonBefore (lexer : Lexer) (start : ℕ) : ℕ → Except ScanFault Bool
  | 0 => .ok false
  | i + 1 =>
    if start ≤ i then do
      let c ← charAt lexer i
      if c = 0x20#8 || c = 0x09#8 then colonBefore lexer start i else .ok (c = ch ':')
    else .ok false

/-- The look of `parser_parse_line_with_labels` at the raw line. -/
def endsWithColon (lexer : Lexer) : Except ScanFault Bool := do
  let start ← lineStart lexer lexer.position
  let lineEnd ← lineEnd lexer lexer.position
  colonBefore lexer start lineEnd

end Checked

end Dez.Assembler
