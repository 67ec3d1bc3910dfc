import Dez.Assembler.Progress

/-! The tokens of a text, and the lexer as a reader of them. -/
namespace Dez.Assembler

/-- What a token says: its type, text and number. -/
structure Lexeme where
  type : TokenType
  value : CString 255
  numValue : Word
  deriving DecidableEq

/-- The end of a text. -/
def Lexeme.end : Lexeme := ⟨.eof, .ofBytes 255 [], 0⟩

/-- A token of a text: what it says, its line, and whether the text behind it ends with a colon. -/
structure Item where
  lexeme : Lexeme
  line : ℕ
  colon : Bool
  deriving DecidableEq

/-- A text behind its blanks and a comment. -/
def skipBlanks (text : List Byte) : List Byte :=
  let text := text.dropWhile lexerIsWhitespace
  if text.headD 0#8 = ch ';' then text.dropWhile fun c => c != 0#8 && c != newline else text

/-- The text up to the end of the line or a comment ends with a colon. -/
def colonEnds (text : List Byte) : Bool :=
  let after := text.takeWhile fun c => c != 0#8 && c != newline && c != ch ';'
  (after.reverse.dropWhile fun c => c = 0x20#8 || c = 0x09#8).head? = some (ch ':')

/-- The tokens of a text that starts at a line. -/
def scanItems : ℕ → ℕ → List Byte → List Item
  | 0, _, _ => []
  | fuel + 1, line, text =>
    let text := skipBlanks text
    let scanned := scanToken text
    if scanned.type = .eof then []
    else
      let rest := text.drop scanned.length
      ⟨⟨scanned.type, .ofBytes 255 scanned.text, scanned.number⟩, line, colonEnds rest⟩ ::
        scanItems fuel (if scanned.type = .newline then line + 1 else line) rest

/-- Every token takes a character. -/
def itemsFrom (line : ℕ) (text : List Byte) : List Item := scanItems (text.length + 1) line text

/-- The tokens of a text. -/
def textItems (text : List Byte) : List Item := itemsFrom 1 text

variable {line : ℕ} {text : List Byte} {lexer : Lexer} {items : List Item}

theorem drop_length_takeWhile (p : Byte → Bool) (l : List Byte) :
    l.drop (l.takeWhile p).length = l.dropWhile p := by
  calc l.drop (l.takeWhile p).length
      = (l.takeWhile p ++ l.dropWhile p).drop (l.takeWhile p).length := by
        rw [List.takeWhile_append_dropWhile]
    _ = l.dropWhile p := List.drop_left

theorem length_skipBlanks (text : List Byte) : (skipBlanks text).length ≤ text.length := by
  have hblanks := (List.dropWhile_suffix (l := text) lexerIsWhitespace).length_le
  unfold skipBlanks
  dsimp only
  split
  · exact (List.dropWhile_suffix _).length_le.trans hblanks
  · exact hblanks

theorem skipBlanks_blank {c : Byte} (hblank : lexerIsWhitespace c = true) :
    skipBlanks (c :: text) = skipBlanks text := by
  rw [skipBlanks, List.dropWhile_cons_of_pos hblank, skipBlanks]

/-- A character that is no blank and opens no comment. -/
theorem skipBlanks_cons {c : Byte} (hblank : lexerIsWhitespace c = false)
    (hcomment : c ≠ ch ';') : skipBlanks (c :: text) = c :: text := by
  unfold skipBlanks
  rw [List.dropWhile_cons_of_neg (by rw [hblank]; exact Bool.false_ne_true)]
  dsimp only
  rw [List.headD_cons, if_neg hcomment]

/-- What is behind a token is shorter. -/
theorem length_behind (h : (scanToken (skipBlanks text)).type ≠ .eof) :
    ((skipBlanks text).drop (scanToken (skipBlanks text)).length).length < text.length := by
  have hpos := scanToken_length_pos _ h
  have hle := length_skipBlanks text
  have hne : (skipBlanks text).length ≠ 0 := by
    intro h0
    rw [List.length_eq_zero_iff.mp h0] at h
    exact h rfl
  rw [List.length_drop]
  omega

/-- Fuel beyond the length of the text changes nothing. -/
theorem scanItems_fuel {fuel : ℕ} (h : text.length < fuel) :
    scanItems fuel line text = itemsFrom line text := by
  have hmore : ∀ (k : ℕ) {fuel line} {text : List Byte}, text.length < fuel →
      scanItems (fuel + k) line text = scanItems fuel line text := by
    intro k fuel
    induction fuel with
    | zero => intro line text h; omega
    | succ fuel ih =>
      intro line text h
      rw [Nat.add_right_comm, scanItems, scanItems]
      dsimp only
      split
      · rfl
      · rename_i heof
        have hlt := length_behind heof
        rw [ih (by omega)]
  obtain ⟨k, rfl⟩ := Nat.exists_eq_add_of_lt h
  rw [itemsFrom, Nat.add_right_comm]
  exact hmore k (Nat.lt_succ_self _)

/-- A text is its first token and the rest. -/
theorem itemsFrom_eq (line : ℕ) (text : List Byte) : itemsFrom line text =
    let scanned := scanToken (skipBlanks text)
    let rest := (skipBlanks text).drop scanned.length
    if scanned.type = .eof then []
    else ⟨⟨scanned.type, .ofBytes 255 scanned.text, scanned.number⟩, line, colonEnds rest⟩ ::
      itemsFrom (if scanned.type = .newline then line + 1 else line) rest := by
  rw [itemsFrom, scanItems]
  dsimp only
  split
  · rfl
  · rename_i heof
    rw [scanItems_fuel (length_behind heof)]

/-- The token a lexer would give next, and what comes behind it. -/
def Lexer.item (lexer : Lexer) : Item :=
  ⟨⟨lexer.currentToken.type, lexer.currentToken.value, lexer.currentToken.numValue⟩,
    lexer.currentToken.line, colonEnds lexer.rest⟩

/-- The tokens a lexer has before it, the one in its buffer first. -/
inductive Reads : Lexer → List Item → Prop
  | fresh {l : Lexer} (h : l.hasToken = false) : Reads l (itemsFrom l.line l.rest)
  | ended {l : Lexer} (h : l.hasToken = true) (hitem : l.item.lexeme = .end)
      (hnone : itemsFrom l.line l.rest = []) : Reads l []
  | buffered {l : Lexer} (h : l.hasToken = true) (heof : l.currentToken.type ≠ .eof)
      (hcolon : l.currentToken.type = .identifier → endsWithColon l = colonEnds l.rest) :
      Reads l (l.item :: itemsFrom l.line l.rest)

/-- The first token, or the end. -/
def headLexeme (items : List Item) : Lexeme := (items.head?.map Item.lexeme).getD .end

def Token.lexeme (token : Token) : Lexeme := ⟨token.type, token.value, token.numValue⟩

theorem reads_init (input : List Byte) : Reads (lexerInit input) (textItems input) := .fresh rfl

theorem rest_skip (lexer : Lexer) (n : ℕ) : (lexer.skip n).rest = lexer.rest.drop n := by
  simp [Lexer.rest, Lexer.skip, List.drop_drop]

theorem rest_skipWhitespace (lexer : Lexer) :
    (lexerSkipWhitespace lexer).rest = skipBlanks lexer.rest := by
  unfold lexerSkipWhitespace lexerSkipComment skipBlanks
  dsimp only
  rw [rest_skip, drop_length_takeWhile]
  split
  · rw [rest_skip, rest_skip, drop_length_takeWhile, drop_length_takeWhile]
  · rw [rest_skip, drop_length_takeWhile]

theorem line_skipWhitespace (lexer : Lexer) : (lexerSkipWhitespace lexer).line = lexer.line := by
  unfold lexerSkipWhitespace lexerSkipComment
  dsimp only
  split <;> rfl

theorem scanString_type (rest : List Byte) :
    (scanString rest).type = .string ∨ (scanString rest).type = .unknown := by
  unfold scanString
  dsimp only
  split
  · exact .inl rfl
  · exact .inr rfl

theorem scanNumber_type (c : Byte) (rest : List Byte) : (scanNumber c rest).type = .number := by
  unfold scanNumber scanPrefixed
  dsimp only
  split
  · rfl
  · split <;> rfl

theorem scanName_type (c : Byte) (rest : List Byte) :
    (scanName c rest).type = .register ∨ (scanName c rest).type = .identifier := by
  unfold scanName
  dsimp only
  split
  · exact .inl rfl
  · exact .inr rfl

/-- What the type of a token says of the character it starts with. -/
structure TokenAt (c : Byte) (rest : List Byte) (scanned : Scanned) : Prop where
  eof : scanned.type = .eof → c = 0#8
  newline : scanned.type = .newline → c = newline
  colon : scanned.type = .colon → c = ch ':'
  number : scanned.type = .number → scanned = scanNumber c rest
  identifier : scanned.type = .identifier → lexerIsAlpha c = true ∧ scanned = scanName c rest

theorem tokenAt_sign {c : Byte} {type : TokenType} (rest : List Byte)
    (h : punctuation c = some type) : TokenAt c rest ⟨type, [c], 0, 1⟩ := by
  unfold punctuation at h
  split_ifs at h with hnewline hcomma hcolon <;> cases h
  · exact ⟨by simp, fun _ => hnewline, by simp, by simp, by simp⟩
  · constructor <;> simp
  · exact ⟨by simp, by simp, fun _ => hcolon, by simp, by simp⟩
  · constructor <;> simp
  · constructor <;> simp
  · constructor <;> simp

/-- A token of another type says nothing. -/
theorem tokenAt_other {c : Byte} {rest : List Byte} {scanned : Scanned}
    (h : scanned.type ∈ [.string, .register, .comment, .unknown]) : TokenAt c rest scanned := by
  simp only [List.mem_cons, List.not_mem_nil, or_false] at h
  constructor <;> intro ht <;> rw [ht] at h <;> simp at h

theorem scanToken_at (c : Byte) (rest : List Byte) : TokenAt c rest (scanToken (c :: rest)) := by
  rw [scanToken]
  split
  · rename_i hnul
    exact ⟨fun _ => hnul, by simp, by simp, by simp, by simp⟩
  split
  · rename_i type hp
    exact tokenAt_sign rest hp
  split_ifs with hcomment hquote hdigit halpha
  · exact tokenAt_other (by simp)
  · rcases scanString_type rest with ht | ht <;> exact tokenAt_other (by simp [ht])
  · have ht := scanNumber_type c rest
    exact ⟨by simp [ht], by simp [ht], by simp [ht], fun _ => rfl, by simp [ht]⟩
  · rcases scanName_type c rest with ht | ht
    · exact tokenAt_other (by simp [ht])
    · exact ⟨by simp [ht], by simp [ht], by simp [ht], by simp [ht], fun _ => ⟨halpha, rfl⟩⟩
  · exact tokenAt_other (by simp)

theorem scanToken_newline (h : (scanToken text).type = .newline) : (scanToken text).length = 1 := by
  cases text with
  | nil => cases h
  | cons c rest =>
    obtain rfl := (scanToken_at c rest).newline h
    rfl

section run

variable {c : Byte}

/-- Numbers and names are made of letters and digits. -/
theorem alnum_of_hexDigit (h : isHexDigit c = true) : lexerIsAlnum c = true := by
  simp only [isHexDigit, lexerIsAlnum, lexerIsAlpha, lexerIsDigit, Bool.or_eq_true,
    Bool.and_eq_true, decide_eq_true_eq] at h ⊢
  omega

theorem alnum_of_binDigit (h : isBinDigit c = true) : lexerIsAlnum c = true := by
  simp only [isBinDigit, Bool.or_eq_true, decide_eq_true_eq] at h
  rcases h with rfl | rfl <;> rfl

theorem alnum_of_digit (h : lexerIsDigit c = true) : lexerIsAlnum c = true := by
  rw [lexerIsAlnum, h, Bool.or_true]

theorem prefixed_run {mark : Byte} {digit : Byte → Bool} {base : ℕ} (hc : lexerIsAlnum c = true)
    (hmark : lexerIsAlnum mark = true) (hdigit : ∀ d, digit d = true → lexerIsAlnum d = true)
    (rest : List Byte) :
    ∀ d ∈ (c :: mark :: rest).take (scanPrefixed c mark digit base rest).length,
      lexerIsAlnum d = true := by
  have hprefix : (rest.takeWhile digit).take 253 <+: rest :=
    (List.take_prefix _ _).trans (List.takeWhile_prefix _)
  have htake : (c :: mark :: rest).take (scanPrefixed c mark digit base rest).length =
      c :: mark :: (rest.takeWhile digit).take 253 := by
    rw [scanPrefixed, Nat.add_comm, List.take_succ_cons, List.take_succ_cons,
      ← List.prefix_iff_eq_take.mp hprefix]
  rw [htake, List.forall_mem_cons, List.forall_mem_cons]
  refine ⟨hc, hmark, ?_⟩
  intro d hd
  exact hdigit d (List.mem_takeWhile_imp (List.mem_of_mem_take hd))

theorem run_of_takeWhile {p : Byte → Bool} (hp : ∀ d, p d = true → lexerIsAlnum d = true) (n : ℕ)
    (text : List Byte) : ∀ d ∈ text.take ((text.takeWhile p).take n).length,
      lexerIsAlnum d = true := by
  have hprefix : (text.takeWhile p).take n <+: text :=
    (List.take_prefix _ _).trans (List.takeWhile_prefix _)
  rw [← List.prefix_iff_eq_take.mp hprefix]
  intro d hd
  exact hp d (List.mem_takeWhile_imp (List.mem_of_mem_take hd))

theorem number_run (c : Byte) (rest : List Byte) :
    ∀ d ∈ (c :: rest).take (scanNumber c rest).length, lexerIsAlnum d = true := by
  have hmarked : ∀ mark : Byte, mark ≠ 0#8 →
      (decide (c = ch '0') && decide (rest.headD 0#8 = mark)) = true →
        c = ch '0' ∧ rest = mark :: rest.tail := by
    intro mark hmark h
    rw [Bool.and_eq_true, decide_eq_true_eq, decide_eq_true_eq] at h
    cases rest with
    | nil => exact absurd h.2.symm hmark
    | cons d rest => exact ⟨h.1, congrArg (· :: rest) h.2⟩
  unfold scanNumber
  split
  · rename_i h
    obtain ⟨rfl, hrest⟩ := hmarked _ (by decide) h
    rw [hrest]
    exact prefixed_run rfl rfl (fun d => alnum_of_hexDigit) _
  · split
    · rename_i h
      obtain ⟨rfl, hrest⟩ := hmarked _ (by decide) h
      rw [hrest]
      exact prefixed_run rfl rfl (fun d => alnum_of_binDigit) _
    · exact run_of_takeWhile (fun d => alnum_of_digit) 255 _

/-- The characters of a number or a name. -/
theorem token_run (h : (scanToken text).type = .identifier ∨ (scanToken text).type = .number) :
    ∀ d ∈ text.take (scanToken text).length, lexerIsAlnum d = true := by
  cases text with
  | nil => rcases h with h | h <;> cases h
  | cons c rest =>
    rcases h with h | h
    · rw [((scanToken_at c rest).identifier h).2]
      exact run_of_takeWhile (fun d hd => hd) 255 _
    · rw [(scanToken_at c rest).number h]
      exact number_run c rest

end run

/-- An identifier is a run of letters and digits. -/
theorem scanToken_identifier (h : (scanToken text).type = .identifier) :
    ∃ front c, text.take (scanToken text).length = front ++ [c] ∧ lexerIsAlnum c = true := by
  cases text with
  | nil => cases h
  | cons c rest =>
    obtain ⟨halpha, hname⟩ := (scanToken_at c rest).identifier h
    have hpos := scanName_length_pos rest halpha
    have hprefix : ((c :: rest).takeWhile lexerIsAlnum).take 255 <+: c :: rest :=
      (List.take_prefix _ _).trans (List.takeWhile_prefix _)
    have htake : (c :: rest).take (scanName c rest).length =
        ((c :: rest).takeWhile lexerIsAlnum).take 255 :=
      (List.prefix_iff_eq_take.mp hprefix).symm
    have hne := List.ne_nil_of_length_pos hpos
    rw [hname]
    refine ⟨_, _, htake.trans (List.dropLast_append_getLast hne).symm, ?_⟩
    exact List.mem_takeWhile_imp (List.mem_of_mem_take (List.getLast_mem hne))

/-- Behind a letter or digit the line parser's test sees the rest of the line only. -/
theorem endsWithColon_behind {front : List Byte} {c : Byte} (hc : lexerIsAlnum c = true)
    (h : lexer.input.take lexer.position = front ++ [c]) :
    endsWithColon lexer = colonEnds lexer.rest := by
  have hline : (c != newline) = true := by
    rw [bne_iff_ne]
    rintro rfl
    cases hc
  have hblank : (decide (c = 0x20#8) || decide (c = 0x09#8)) = false := by
    by_contra hno
    simp only [Bool.not_eq_false, Bool.or_eq_true, decide_eq_true_eq] at hno
    rcases hno with rfl | rfl <;> cases hc
  have hcolon : c ≠ ch ':' := by
    rintro rfl
    cases hc
  have hrun : (c :: front.reverse).takeWhile (· != newline) =
      c :: front.reverse.takeWhile (· != newline) := List.takeWhile_cons_of_pos hline
  unfold endsWithColon colonEnds
  dsimp only
  rw [h, List.reverse_append, List.reverse_reverse, List.reverse_append, List.reverse_singleton,
    List.singleton_append, hrun]
  generalize (lexer.rest.takeWhile _).reverse = after
  induction after with
  | nil => simp [hblank, hcolon]
  | cons d after ih =>
    rw [List.cons_append, List.dropWhile_cons, List.dropWhile_cons]
    split
    · exact ih
    · rfl

/-- The token the lexer finds, and where it leaves the text. -/
theorem nextToken_eq (h : lexer.hasToken = false) :
    let scanned := scanToken (skipBlanks lexer.rest)
    (lexerNextToken lexer).1.lexeme =
        ⟨scanned.type, .ofBytes 255 scanned.text, scanned.number⟩ ∧
      (lexerNextToken lexer).1.line = lexer.line ∧
      (lexerNextToken lexer).2.rest = (skipBlanks lexer.rest).drop scanned.length ∧
      (lexerNextToken lexer).2.line =
        if scanned.type = .newline then lexer.line + 1 else lexer.line := by
  simp only [lexerNextToken, h, Bool.false_eq_true, if_false, rest_skipWhitespace,
    line_skipWhitespace]
  split
  · rename_i hn
    have hlen := scanToken_newline hn
    refine ⟨rfl, rfl, ?_, rfl⟩
    rw [hlen, ← rest_skipWhitespace]
    simp [Lexer.rest, List.drop_drop]
  · refine ⟨rfl, rfl, ?_, ?_⟩
    · rw [rest_skip, rest_skipWhitespace]
    · exact line_skipWhitespace lexer

theorem scanToken_eof (h : (scanToken text).type = .eof) :
    scanToken text = ⟨.eof, [], 0, 0⟩ ∧ skipBlanks text = text := by
  cases text with
  | nil => exact ⟨rfl, rfl⟩
  | cons c rest =>
    obtain rfl := (scanToken_at c rest).eof h
    exact ⟨rfl, rfl⟩

theorem itemsFrom_eof (line : ℕ) (h : (scanToken text).type = .eof) : itemsFrom line text = [] := by
  rw [itemsFrom_eq, (scanToken_eof h).2]
  exact if_pos h

/-- A token put into the buffer. -/
def Lexer.buffer (lexer : Lexer) (token : Token) : Lexer :=
  { lexer with currentToken := token, hasToken := true }

@[simp] theorem rest_buffer (lexer : Lexer) (token : Token) :
    (lexer.buffer token).rest = lexer.rest := rfl

theorem peek_fresh (h : lexer.hasToken = false) : lexerPeekToken lexer =
    ((lexerNextToken lexer).1, (lexerNextToken lexer).2.buffer (lexerNextToken lexer).1) :=
  peek_of_not_hasToken h

/-- An identifier found has a letter or digit in front of the new position. -/
theorem nextToken_identifier (h : lexer.hasToken = false)
    (hi : (lexerNextToken lexer).1.type = .identifier) :
    endsWithColon ((lexerNextToken lexer).2.buffer (lexerNextToken lexer).1) =
      colonEnds (lexerNextToken lexer).2.rest := by
  simp only [lexerNextToken, h, Bool.false_eq_true, if_false] at hi ⊢
  split
  · rename_i hn
    rw [if_pos hn, hn] at hi
    cases hi
  · rename_i hn
    rw [if_neg hn] at hi
    obtain ⟨front, c, htake, hc⟩ := scanToken_identifier hi
    have hfront : (lexerSkipWhitespace lexer).input.take ((lexerSkipWhitespace lexer).position +
        (scanToken (lexerSkipWhitespace lexer).rest).length) =
          ((lexerSkipWhitespace lexer).input.take (lexerSkipWhitespace lexer).position ++ front) ++
            [c] := by
      rw [List.append_assoc, ← htake]
      exact List.take_add
    exact endsWithColon_behind hc hfront

/-- Looking at the next token keeps the tokens. -/
theorem reads_peek_fresh (h : lexer.hasToken = false) :
    Reads (lexerPeekToken lexer).2 (itemsFrom lexer.line lexer.rest) := by
  obtain ⟨hlexeme, hline, hrest, hnext⟩ := nextToken_eq h
  have htype : (lexerNextToken lexer).1.type = (scanToken (skipBlanks lexer.rest)).type :=
    congrArg Lexeme.type hlexeme
  have hbuffered := fun heof => Reads.buffered
    (l := (lexerNextToken lexer).2.buffer (lexerNextToken lexer).1) rfl heof
      (nextToken_identifier h)
  rw [peek_fresh h]
  by_cases heof : (scanToken (skipBlanks lexer.rest)).type = .eof
  · obtain ⟨hscan, hblanks⟩ := scanToken_eof heof
    have hend : (lexerNextToken lexer).2.rest = skipBlanks lexer.rest := by
      rw [hrest, hscan]
      rfl
    rw [itemsFrom_eq, if_pos heof]
    refine .ended rfl ?_ (itemsFrom_eof _ ?_)
    · exact hlexeme.trans (by rw [hscan]; rfl)
    · rwa [rest_buffer, hend]
  · have hread := hbuffered (htype ▸ heof)
    have hitem : ((lexerNextToken lexer).2.buffer (lexerNextToken lexer).1).item =
        ⟨⟨(scanToken (skipBlanks lexer.rest)).type,
            .ofBytes 255 (scanToken (skipBlanks lexer.rest)).text,
            (scanToken (skipBlanks lexer.rest)).number⟩, lexer.line,
          colonEnds ((skipBlanks lexer.rest).drop (scanToken (skipBlanks lexer.rest)).length)⟩ := by
      rw [← hlexeme, ← hline, ← hrest]
      rfl
    rw [hitem, rest_buffer, hrest] at hread
    rw [itemsFrom_eq]
    dsimp only
    rw [if_neg heof, ← hnext]
    exact hread

theorem Reads.peek (h : Reads lexer items) : Reads (lexerPeekToken lexer).2 items := by
  cases h with
  | fresh h => exact reads_peek_fresh h
  | ended h hitem hnone =>
    rw [peek_of_hasToken h]
    exact .ended h hitem hnone
  | buffered h heof hcolon =>
    rw [peek_of_hasToken h]
    exact .buffered h heof hcolon

/-- Once a token is looked at, it is the first, or the tokens are over. -/
theorem Reads.peeked (h : Reads lexer items) :
    (items = [] ∧ (lexerPeekToken lexer).2.item.lexeme = .end ∧
      itemsFrom (lexerPeekToken lexer).2.line (lexerPeekToken lexer).2.rest = []) ∨
    (items = (lexerPeekToken lexer).2.item ::
        itemsFrom (lexerPeekToken lexer).2.line (lexerPeekToken lexer).2.rest ∧
      (lexerPeekToken lexer).2.item.lexeme.type ≠ .eof ∧
      ((lexerPeekToken lexer).2.currentToken.type = .identifier →
        endsWithColon (lexerPeekToken lexer).2 = colonEnds (lexerPeekToken lexer).2.rest)) := by
  have hpeek := h.peek
  have htoken := hasToken_peek lexer
  generalize (lexerPeekToken lexer).2 = peeked at hpeek htoken
  cases hpeek with
  | fresh hnone =>
    rw [hnone] at htoken
    cases htoken
  | ended _ hitem hnone => exact .inl ⟨rfl, hitem, hnone⟩
  | buffered _ heof hcolon => exact .inr ⟨rfl, heof, hcolon⟩

/-- The token seen is the first. -/
theorem Reads.lexeme (h : Reads lexer items) :
    (lexerPeekToken lexer).1.lexeme = headLexeme items := by
  have hcurrent : (lexerPeekToken lexer).2.item.lexeme = (lexerPeekToken lexer).1.lexeme := by
    rw [← currentToken_peek]
    rfl
  rw [← hcurrent]
  rcases h.peeked with ⟨rfl, hitem, -⟩ | ⟨hitems, -⟩
  · exact hitem
  · rw [hitems]
    rfl

theorem Reads.tokenLine {item : Item} (h : Reads lexer (item :: items)) :
    (lexerPeekToken lexer).1.line = item.line := by
  rw [← currentToken_peek]
  rcases h.peeked with ⟨hnil, -⟩ | ⟨hitems, -⟩
  · cases hnil
  · rw [(List.cons.inj hitems).1]
    rfl

theorem Reads.type_ne_eof {item : Item} (h : Reads lexer (item :: items)) :
    item.lexeme.type ≠ .eof := by
  rcases h.peeked with ⟨hnil, -⟩ | ⟨hitems, heof, -⟩
  · cases hnil
  · rwa [(List.cons.inj hitems).1]

/-- The line parser's test sees what the token carries. -/
theorem Reads.endsWithColon {item : Item} (h : Reads lexer (item :: items))
    (hi : item.lexeme.type = .identifier) :
    endsWithColon (lexerPeekToken lexer).2 = item.colon := by
  rcases h.peeked with ⟨hnil, -⟩ | ⟨hitems, -, hcolon⟩
  · cases hnil
  · rw [(List.cons.inj hitems).1] at hi ⊢
    exact hcolon hi

/-- Taking a token leaves the others. -/
theorem Reads.advance (h : Reads lexer items) : Reads (parserAdvance lexer) items.tail := by
  have hfresh : Reads (parserAdvance lexer)
      (itemsFrom (lexerPeekToken lexer).2.line (lexerPeekToken lexer).2.rest) := by
    cases htoken : lexer.hasToken with
    | true =>
      rw [advance_of_hasToken htoken, peek_of_hasToken htoken]
      exact .fresh (l := { lexer with hasToken := false }) rfl
    | false =>
      rw [peek_fresh htoken, rest_buffer]
      exact .fresh (nextToken_forward htoken).2.1
  rcases h.peeked with ⟨rfl, -, hnone⟩ | ⟨hitems, -⟩
  · rw [List.tail_nil, ← hnone]
    exact hfresh
  · rw [hitems, List.tail_cons]
    exact hfresh

end Dez.Assembler
