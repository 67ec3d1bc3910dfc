import Dez.Runs
import Dez.Assembler.Layout
import Dez.Assembler.Spelling

/-! A text read one line after the other. -/
namespace Dez.Assembler
variable {c : Byte} {line rest : List Byte} {number : ℕ}

section lexer

theorem skipBlanks_suffix (text : List Byte) : skipBlanks text <:+ text := by
  have hblanks := List.dropWhile_suffix (l := text) lexerIsWhitespace
  unfold skipBlanks
  dsimp only
  split
  · exact (List.dropWhile_suffix _).trans hblanks
  · exact hblanks

theorem skipBlanks_line (line rest : List Byte) :
    skipBlanks (line ++ newline :: rest) = skipBlanks line ++ newline :: rest := by
  unfold skipBlanks
  dsimp only
  rw [dropWhile_stop (by decide)]
  cases line.dropWhile lexerIsWhitespace with
  | nil =>
    rw [List.nil_append, List.headD_cons, List.headD_nil, if_neg (by decide), if_neg (by decide)]
    rfl
  | cons c body =>
    rw [List.cons_append, List.headD_cons, List.headD_cons]
    split
    · exact dropWhile_stop (by decide) (c :: body) rest
    · rfl

/-- The text up to the first newline or semicolon, in a string or not. -/
def rawLine (text : List Byte) : List Byte :=
  text.takeWhile fun c => c != 0#8 && c != newline && c != ch ';'

/-- Blanks are no end of a line. -/
theorem rawLine_blanks {gap : List Byte} (hgap : ∀ c ∈ gap, lexerIsWhitespace c = true)
    (text : List Byte) : rawLine (gap ++ text) = gap ++ rawLine text := by
  have hpass : ∀ c ∈ gap, (c != 0#8 && c != newline && c != ch ';') = true := by
    intro c hc
    have hwhite := hgap c hc
    simp only [lexerIsWhitespace, Bool.or_eq_true, decide_eq_true_eq] at hwhite
    rcases hwhite with (rfl | rfl) | rfl <;> rfl
  exact List.takeWhile_append_of_pos hpass

theorem rawLine_colon (text : List Byte) :
    rawLine (ch ':' :: text) = ch ':' :: rawLine text := rfl

theorem colonEnds_iff {text : List Byte} : colonEnds text = true ↔
    ∃ front blanks, rawLine text = front ++ ch ':' :: blanks ∧
      ∀ c ∈ blanks, c = 0x20#8 ∨ c = 0x09#8 := by
  have hblank : ∀ c : Byte, (decide (c = 0x20#8) || decide (c = 0x09#8)) = true ↔
      c = 0x20#8 ∨ c = 0x09#8 := by
    intro c
    rw [Bool.or_eq_true, decide_eq_true_eq, decide_eq_true_eq]
  have hends : colonEnds text = true ↔ ((rawLine text).reverse.dropWhile fun c =>
      c = 0x20#8 || c = 0x09#8).head? = some (ch ':') := decide_eq_true_iff
  rw [hends]
  constructor
  · intro hhead
    obtain ⟨behind, hbehind⟩ := List.head?_eq_some_iff.mp hhead
    refine ⟨behind.reverse, ((rawLine text).reverse.takeWhile fun c =>
      c = 0x20#8 || c = 0x09#8).reverse, ?_, ?_⟩
    · apply List.reverse_injective
      rw [List.reverse_append, List.reverse_cons, List.reverse_reverse, List.reverse_reverse,
        List.append_assoc, List.singleton_append, ← hbehind, List.takeWhile_append_dropWhile]
    · intro c hc
      have hpass := List.mem_takeWhile_imp (List.mem_reverse.mp hc)
      exact (hblank c).mp hpass
  · rintro ⟨front, blanks, hline, hblanks⟩
    have hback : ∀ c ∈ blanks.reverse, (decide (c = 0x20#8) || decide (c = 0x09#8)) = true :=
      fun c hc => (hblank c).mpr (hblanks c (List.mem_reverse.mp hc))
    rw [hline, List.reverse_append, List.reverse_cons, List.append_assoc,
      List.dropWhile_append_of_pos hback]
    rfl

theorem colonEnds_line (line rest : List Byte) :
    colonEnds (line ++ newline :: rest) = colonEnds line := by
  unfold colonEnds
  rw [takeWhile_stop (by decide)]

theorem headD_append (h : line.headD 0#8 ≠ 0#8) : (line ++ rest).headD 0#8 = line.headD 0#8 := by
  cases line with
  | nil => exact absurd rfl h
  | cons c line => rfl

/-- A string that is closed in its line does not see the next one. -/
theorem scanString_line (h : (scanString line).type ≠ .unknown) :
    scanString (line ++ newline :: rest) = scanString line := by
  unfold scanString at h ⊢
  dsimp only at h ⊢
  split at h
  · rename_i hquote
    have hmem : ∀ n, (line.drop n).headD 0#8 = quote → quote ∈ line := by
      intro n hhead
      cases hd : line.drop n with
      | nil =>
        rw [hd] at hhead
        cases hhead
      | cons c behind =>
        rw [hd, List.headD_cons] at hhead
        exact List.mem_of_mem_drop (i := n) (by rw [hd, hhead]; exact List.mem_cons_self ..)
    have hrun : ((line ++ newline :: rest).takeWhile fun d => d != 0#8 && d != quote) =
        line.takeWhile fun d => d != 0#8 && d != quote := by
      rw [List.takeWhile_append, if_neg]
      intro hall
      -- a run over the whole line has no quote behind it
      have hin := hmem _ hquote
      rw [← (List.takeWhile_prefix _).eq_of_length hall] at hin
      have hpass := List.mem_takeWhile_imp hin
      cases hpass
    have hle := ((List.take_prefix 255 _).trans
      (List.takeWhile_prefix (l := line) fun d => d != 0#8 && d != quote)).length_le
    rw [hrun, List.drop_append_of_le_length hle, headD_append (by rw [hquote]; decide),
      if_pos hquote]
  · exact absurd rfl h

theorem scanNumber_line (c : Byte) (line rest : List Byte) :
    scanNumber c (line ++ newline :: rest) = scanNumber c line := by
  have hrun : ∀ digit : Byte → Bool, digit newline = false →
      (c :: (line ++ newline :: rest)).takeWhile digit = (c :: line).takeWhile digit :=
    fun digit h => takeWhile_stop h (c :: line) rest
  unfold scanNumber
  rw [hrun _ (by decide)]
  cases line with
  | nil =>
    have hmarks : ∀ head mark : Byte, head ≠ mark →
        (decide (c = ch '0') && decide (head = mark)) = false := by
      intro head mark hne
      rw [decide_eq_false hne, Bool.and_false]
    rw [List.nil_append, List.headD_cons, List.headD_nil, hmarks newline _ (by decide),
      hmarks newline _ (by decide), hmarks 0#8 _ (by decide), hmarks 0#8 _ (by decide)]
    rfl
  | cons d line =>
    unfold scanPrefixed
    rw [List.cons_append, List.headD_cons, List.headD_cons, List.tail_cons, List.tail_cons,
      takeWhile_stop (by decide), takeWhile_stop (by decide)]

theorem scanToken_line (h : (scanToken (c :: line)).type ≠ .unknown) :
    scanToken (c :: line ++ newline :: rest) = scanToken (c :: line) := by
  rw [List.cons_append, scanToken, scanToken]
  rw [scanToken] at h
  split
  · rfl
  · rename_i h0
    rw [if_neg h0] at h
    split
    · rfl
    · rename_i hp
      rw [hp] at h
      dsimp only at h
      split_ifs at h ⊢ with hcomment hquote hdigit halpha
      · rw [takeWhile_stop (by decide)]
      · exact scanString_line h
      · exact scanNumber_line c line rest
      · unfold scanName
        rw [← List.cons_append, takeWhile_stop (by decide)]
      · rfl

theorem scanToken_type (hnul : c ≠ 0#8) (hnewline : c ≠ newline) :
    (scanToken (c :: line)).type ≠ .eof ∧ (scanToken (c :: line)).type ≠ .newline :=
  ⟨mt (scanToken_at c line).eof hnul, mt (scanToken_at c line).newline hnewline⟩

/-- The tokens of a line, its end and the lines behind it. -/
theorem itemsFrom_line (hnul : 0#8 ∉ line) (hnewline : newline ∉ line)
    (hknown : ∀ item ∈ itemsFrom number line, item.lexeme.type ≠ .unknown) (rest : List Byte) :
    itemsFrom number (line ++ newline :: rest) = itemsFrom number line ++
      ⟨signLexeme .newline newline, number, colonEnds rest⟩ :: itemsFrom (number + 1) rest := by
  induction hn : line.length using Nat.strong_induction_on generalizing line with
  | _ n ih =>
    have hmem := (skipBlanks_suffix line).subset
    have hshorter := @length_behind line
    have hitems := itemsFrom_eq number line
    rw [itemsFrom_eq, skipBlanks_line]
    cases hs : skipBlanks line with
    | nil =>
      rw [hs] at hitems
      rw [hitems]
      rfl
    | cons c body =>
      rw [hs] at hitems hmem hshorter
      have hc : c ≠ 0#8 := fun h => hnul (h ▸ hmem (List.mem_cons_self ..))
      have hc' : c ≠ newline := fun h => hnewline (h ▸ hmem (List.mem_cons_self ..))
      have hends := @scanToken_type c body hc hc'
      dsimp only at hitems
      rw [if_neg hends.1, if_neg hends.2] at hitems
      rw [hitems] at hknown ⊢
      obtain ⟨hfirst, hbehind⟩ := List.forall_mem_cons.mp hknown
      have hsuffix := List.drop_suffix (scanToken (c :: body)).length (c :: body)
      have hrest := ih _ (hn ▸ hshorter hends.1) (fun h => hnul (hmem (hsuffix.subset h)))
        (fun h => hnewline (hmem (hsuffix.subset h))) hbehind rfl
      dsimp only
      rw [scanToken_line hfirst, if_neg hends.1, if_neg hends.2,
        List.drop_append_of_le_length (length_scanToken_le _), colonEnds_line, hrest]
      rfl

end lexer

section parser

variable {items more rest : List Item} {α β : Type}

/-- An operand in brackets is three tokens. -/
theorem memoryOperandOf_cons (bracket token close : Item) (items : List Item) :
    memoryOperandOf (bracket :: token :: close :: items) =
      (memoryOperandOf [bracket, token, close]).bind fun operand _ => .ok operand items := by
  have hclose : ∀ operand : Operand,
      (if close.lexeme.type = .rbracket then Parse.ok operand items else .fail) =
        (if close.lexeme.type = .rbracket then Parse.ok operand [] else .fail).bind
          fun operand _ => .ok operand items := by
    intro operand
    split <;> rfl
  unfold memoryOperandOf
  dsimp only [List.tail_cons, headLexeme, List.head?_cons, Option.map_some, Option.getD_some]
  cases token.lexeme.type with
  | number | identifier => exact hclose _
  | _ => rfl

/-- No token is one the lexer does not know, such as a string without an end. -/
def Known (items : List Item) : Prop := ∀ item ∈ items, item.lexeme.type ≠ .unknown

theorem known_cons {item : Item} (h : item.lexeme.type ≠ .unknown) (hitems : Known items) :
    Known (item :: items) := List.forall_mem_cons.mpr ⟨h, hitems⟩

theorem Known.append {behind : List Item} (h : Known items) (hbehind : Known behind) :
    Known (items ++ behind) := by
  intro item hitem
  rcases List.mem_append.mp hitem with hin | hin
  · exact h item hin
  · exact hbehind item hin

/-- A parsing function takes these tokens, whatever is behind them. -/
structure Takes (parse : List Item → Parse α) (used : List Item) (value : α) : Prop where
  known : Known used
  anywhere : ∀ rest, parse (used ++ rest) = .ok value rest

theorem memoryOperandOf_takes {bracket : Item} {operand : Operand}
    (h : memoryOperandOf (bracket :: items) = .ok operand rest) : ∃ token close : Item,
      items = token :: close :: rest ∧ Known [token, close] ∧
        ∀ rest, memoryOperandOf (bracket :: token :: close :: rest) = .ok operand rest := by
  match items, h with
  | [], h => cases h
  | [token], h =>
    unfold memoryOperandOf at h
    dsimp only at h
    split at h <;> cases h
  | token :: close :: items, h =>
    rw [memoryOperandOf_cons] at h
    obtain ⟨found, behind, hfound, hrest⟩ := Parse.bind_eq_ok h
    obtain ⟨rfl, rfl⟩ := Parse.ok.inj hrest
    have htoken : token.lexeme.type ≠ .unknown := by
      intro ht
      simp [memoryOperandOf, headLexeme, ht] at hfound
    have hclose : close.lexeme.type ≠ .unknown := by
      intro hc
      have hfail : memoryOperandOf [bracket, token, close] = .fail := by
        unfold memoryOperandOf
        dsimp only
        split
        · rfl
        · exact if_neg fun he => by cases hc.symm.trans he
      rw [hfail] at hfound
      cases hfound
    refine ⟨token, close, rfl, known_cons htoken (known_cons hclose nofun), fun rest => ?_⟩
    rw [memoryOperandOf_cons, hfound]
    rfl

theorem operandOf_takes {operand : Operand} (h : operandOf items = .ok operand rest) :
    ∃ used, items = used ++ rest ∧ Takes operandOf used operand := by
  cases items with
  | nil => cases h
  | cons token items =>
    unfold operandOf at h
    dsimp only [List.tail_cons, headLexeme, List.head?_cons, Option.map_some, Option.getD_some] at h
    cases ht : token.lexeme.type with
    | register | string | number | identifier =>
      rw [ht] at h
      cases h
      refine ⟨[token], rfl, known_cons (by rw [ht]; exact nofun) nofun, fun rest => ?_⟩
      unfold operandOf
      dsimp only [List.singleton_append, List.tail_cons, headLexeme, List.head?_cons,
        Option.map_some, Option.getD_some]
      rw [ht]
    | lbracket =>
      rw [ht] at h
      obtain ⟨name, close, rfl, hknown, hmore⟩ := memoryOperandOf_takes h
      refine ⟨[token, name, close], rfl, known_cons (by rw [ht]; exact nofun) hknown,
        fun rest => ?_⟩
      unfold operandOf
      dsimp only [List.cons_append, List.nil_append, List.tail_cons, headLexeme, List.head?_cons,
        Option.map_some, Option.getD_some]
      rw [ht]
      exact hmore rest
    | hash =>
      rw [ht] at h
      cases items with
      | nil => cases h
      | cons next items =>
        dsimp only [List.tail_cons, List.head?_cons, Option.map_some, Option.getD_some] at h
        have hhash : token.lexeme.type ≠ .unknown := by rw [ht]; exact nofun
        cases hn : next.lexeme.type with
        | number | identifier =>
          rw [hn] at h
          cases h
          refine ⟨[token, next], rfl, known_cons hhash (known_cons (by rw [hn]; exact nofun) nofun),
            fun rest => ?_⟩
          unfold operandOf
          dsimp only [List.cons_append, List.nil_append, List.tail_cons, headLexeme,
            List.head?_cons, Option.map_some, Option.getD_some]
          rw [ht]
          dsimp only
          rw [hn]
        | lbracket =>
          rw [hn] at h
          obtain ⟨name, close, rfl, hknown, hmore⟩ := memoryOperandOf_takes h
          refine ⟨[token, next, name, close], rfl,
            known_cons hhash (known_cons (by rw [hn]; exact nofun) hknown), fun rest => ?_⟩
          unfold operandOf
          dsimp only [List.cons_append, List.nil_append, List.tail_cons, headLexeme,
            List.head?_cons, Option.map_some, Option.getD_some]
          rw [ht]
          dsimp only
          rw [hn]
          exact hmore rest
        | _ =>
          rw [hn] at h
          cases h
    | _ =>
      rw [ht] at h
      cases h

/-- One parsing function after another. -/
theorem bind_takes {parse : List Item → Parse α} {f : α → List Item → Parse β} {value : β}
    (hparse : ∀ {first behind}, parse items = .ok first behind →
      ∃ used, items = used ++ behind ∧ Takes parse used first)
    (hf : ∀ {first behind}, f first behind = .ok value rest →
      ∃ used, behind = used ++ rest ∧ Takes (f first) used value)
    (h : (parse items).bind f = .ok value rest) :
    ∃ used, items = used ++ rest ∧ Takes (fun items => (parse items).bind f) used value := by
  obtain ⟨first, behind, hfirst, hsecond⟩ := Parse.bind_eq_ok h
  obtain ⟨used, rfl, htakes⟩ := hparse hfirst
  obtain ⟨used', rfl, htakes'⟩ := hf hsecond
  refine ⟨used ++ used', (List.append_assoc ..).symm, htakes.known.append htakes'.known,
    fun rest => ?_⟩
  rw [List.append_assoc, htakes.anywhere]
  exact htakes'.anywhere rest

/-- What is made of a value takes no token of its own. -/
theorem ok_takes {value : α} {f : α → β} {result : β}
    (h : Parse.ok (f value) items = .ok result rest) :
    ∃ used, items = used ++ rest ∧ Takes (fun items => Parse.ok (f value) items) used result := by
  obtain ⟨rfl, rfl⟩ := Parse.ok.inj h
  exact ⟨[], rfl, nofun, fun rest => rfl⟩

theorem operandsOf_takes {i n : ℕ} {operands : List Operand}
    (h : operandsOf i n items = .ok operands rest) :
    ∃ used, items = used ++ rest ∧ Takes (operandsOf i n) used operands := by
  induction n generalizing i items operands rest with
  | zero =>
    cases h
    exact ⟨[], rfl, nofun, fun rest => rfl⟩
  | succ n ih =>
    have hrest : ∀ {items : List Item}, ((operandOf items).bind fun operand items =>
        (operandsOf (i + 1) n items).bind fun operands items =>
          .ok (operand :: operands) items) = .ok operands rest →
        ∃ used, items = used ++ rest ∧ Takes (fun items => (operandOf items).bind
          fun operand items => (operandsOf (i + 1) n items).bind fun operands items =>
            .ok (operand :: operands) items) used operands :=
      bind_takes operandOf_takes (bind_takes ih ok_takes)
    unfold operandsOf at h
    by_cases hi : 0 < i
    · by_cases hcomma : (headLexeme items).type = .comma
      · obtain ⟨comma, items, rfl⟩ := @headLexeme_ne_nil items
          (by simp [hcomma])
        rw [if_neg fun hno => hno.2 hcomma, if_pos hi] at h
        obtain ⟨used, rfl, htakes⟩ := hrest h
        have hcomma : comma.lexeme.type = .comma := hcomma
        refine ⟨comma :: used, rfl, known_cons (by simp [hcomma]) htakes.known,
          fun rest => ?_⟩
        rw [operandsOf, if_neg fun hno => hno.2 hcomma, if_pos hi]
        exact htakes.anywhere rest
      · rw [if_pos ⟨hi, hcomma⟩] at h
        cases h
    · rw [if_neg fun hno => hi hno.1, if_neg hi] at h
      obtain ⟨used, rfl, htakes⟩ := hrest h
      refine ⟨used, rfl, htakes.known, fun rest => ?_⟩
      rw [operandsOf, if_neg fun hno => hi hno.1, if_neg hi]
      exact htakes.anywhere rest

theorem instructionOf_takes {inst : ParsedInstruction} (h : instructionOf items = .ok inst rest) :
    ∃ used, items = used ++ rest ∧ Takes instructionOf used inst := by
  have hi : (headLexeme items).type = .identifier := by
    by_contra hi
    rw [instructionOf, if_pos hi] at h
    cases h
  obtain ⟨token, items, rfl⟩ := @headLexeme_ne_nil items (by simp [hi])
  have htoken : token.lexeme.type = .identifier := hi
  rw [instructionOf, if_neg (not_not_intro hi)] at h
  dsimp only [headLexeme, List.head?_cons, Option.map_some, Option.getD_some, List.tail_cons] at h
  cases hname : instructionNamed token.lexeme.value.chars with
  | none =>
    rw [hname] at h
    cases h
  | some entry =>
    rw [hname] at h
    obtain ⟨used, rfl, htakes⟩ := bind_takes operandsOf_takes ok_takes h
    refine ⟨token :: used, rfl, known_cons (by simp [htoken]) htakes.known,
      fun rest => ?_⟩
    unfold instructionOf
    dsimp only [List.cons_append, headLexeme, List.head?_cons, Option.map_some, Option.getD_some,
      List.tail_cons]
    rw [if_neg (not_not_intro htoken), hname]
    exact htakes.anywhere rest

/-- What the line parser has found when it says a line is an instruction. -/
structure ReadsInstruction (items : List Item) (inst : ParsedInstruction) (rest : List Item) :
    Prop where
  type : (headLexeme items).type = .identifier
  colon : headColon items = false
  equ : (headLexeme items).value.chars ≠ bytes "EQU"
  read : instructionOf items = .ok inst rest

theorem readsInstruction_iff {inst : ParsedInstruction} :
    lineOf items = .ok (.instruction inst) rest ↔ ReadsInstruction items inst rest := by
  constructor
  · intro h
    cases lineOf_ok h with
    | constant _ _ _ hread =>
      obtain ⟨⟨value, hline⟩, -⟩ := constantOf_ok hread
      cases hline
    | instruction hi hcolon hequ hread => exact ⟨hi, hcolon, hequ, hread⟩
  · rintro ⟨hi, hcolon, hequ, hread⟩
    unfold lineOf
    simp only [hi, reduceCtorEq, if_false, true_and, hcolon, hequ, Bool.false_eq_true, hread]
    rfl

theorem lineOf_takes {inst : ParsedInstruction} (h : lineOf items = .ok (.instruction inst) rest) :
    ∃ used, items = used ++ rest ∧ Takes lineOf used (.instruction inst) := by
  obtain ⟨hi, hcolon, hequ, hread⟩ := readsInstruction_iff.mp h
  obtain ⟨used, rfl, htakes⟩ := instructionOf_takes hread
  refine ⟨used, rfl, htakes.known, fun more => readsInstruction_iff.mpr ?_⟩
  cases used with
  | nil => cases htakes.anywhere []
  | cons token used => exact ⟨hi, hcolon, hequ, htakes.anywhere more⟩

end parser

/-- The lines of a text that starts at line `number`. -/
def textLines (number : ℕ) (text : List Byte) : List Line :=
  (linesOf (text.length + 1) (itemsFrom number text)).1

section text

variable {text : List Byte} {read : Line}

theorem source_textLines (input : List Byte) : (readSource input).lines = textLines 1 input :=
  (readSource_lines input).1

theorem linesOf_fuel {fuel : ℕ} (h : text.length < fuel) :
    (linesOf fuel (itemsFrom number text)).1 = textLines number text := by
  let lexer : Lexer := { lexerInit text with line := number }
  have hreads : Reads lexer (itemsFrom number text) := .fresh rfl
  have hleft : lexer.left = text.length := left_of_not_hasToken rfl
  obtain ⟨k, rfl⟩ := Nat.exists_eq_add_of_lt h
  have hfuel := @readLines_fuel (text.length + 1) lexer (by omega) k
  rw [textLines, ← (lines_match _ hreads).1, ← (lines_match _ hreads).1, ← hfuel,
    Nat.add_right_comm]

theorem linesOf_nil (fuel : ℕ) : (linesOf fuel []).1 = [] := by
  cases fuel <;> rfl

theorem textLines_last (h : lineOf (itemsFrom number text) = .ok read []) :
    textLines number text = [read] := by
  rw [textLines, linesOf_ok (lineOf_ne_eof h) h, linesOf_nil]

theorem textLines_blank (colon : Bool) (hlength : rest.length < text.length)
    (h : itemsFrom number text =
      ⟨signLexeme .newline newline, number, colon⟩ :: itemsFrom (number + 1) rest) :
    textLines number text = .blank :: textLines (number + 1) rest := by
  rw [textLines, h, linesOf_ok (lineOf_ne_eof rfl) rfl, ← linesOf_fuel hlength]
  rfl

theorem textLines_next (colon : Bool) (hlength : rest.length < text.length)
    (h : lineOf (itemsFrom number text) = .ok read
      (⟨signLexeme .newline newline, number, colon⟩ :: itemsFrom (number + 1) rest)) :
    textLines number text = read :: .blank :: textLines (number + 1) rest := by
  have hfuel := @linesOf_fuel number text (text.length + 1 + 1) (by omega)
  rw [← hfuel, linesOf_ok (lineOf_ne_eof h) h, linesOf_ok (lineOf_ne_eof rfl) rfl,
    ← linesOf_fuel hlength]
  rfl

theorem textLines_instruction {inst : ParsedInstruction} (hnul : 0#8 ∉ line)
    (hnewline : newline ∉ line) (h : lineOf (itemsFrom number line) = .ok (.instruction inst) []) :
    textLines number line = [.instruction inst] ∧ ∀ rest,
      textLines number (line ++ newline :: rest) =
        .instruction inst :: .blank :: textLines (number + 1) rest := by
  obtain ⟨used, hused, htakes⟩ := lineOf_takes h
  rw [List.append_nil] at hused
  refine ⟨textLines_last h, fun rest => textLines_next (colonEnds rest) ?_ ?_⟩
  · rw [List.length_append, List.length_cons]
    omega
  · rw [itemsFrom_line hnul hnewline (by rw [hused]; exact htakes.known), hused]
    exact htakes.anywhere _

theorem skipBlanks_run {blanks : List Byte} (h : ∀ c ∈ blanks, lexerIsWhitespace c = true) :
    skipBlanks (blanks ++ text) = skipBlanks text := by
  unfold skipBlanks
  rw [List.dropWhile_append_of_pos h]

/-- A comment from its semicolon on, or nothing. -/
def IsComment (comment : List Byte) : Prop :=
  0#8 ∉ comment ∧ newline ∉ comment ∧ comment.headD (ch ';') = ch ';'

theorem skipBlanks_comment {comment : List Byte} (h : IsComment comment) :
    skipBlanks comment = [] := by
  obtain ⟨hnul, hnewline, hhead⟩ := h
  cases comment with
  | nil => rfl
  | cons c comment =>
    obtain rfl : c = ch ';' := hhead
    unfold skipBlanks
    rw [List.dropWhile_cons_of_neg (by decide)]
    dsimp only
    rw [List.headD_cons, if_pos rfl, List.dropWhile_eq_nil_iff]
    intro d hd
    rw [Bool.and_eq_true, bne_iff_ne, bne_iff_ne]
    exact ⟨fun h => hnul (h ▸ hd), fun h => hnewline (h ▸ hd)⟩

theorem itemsFrom_comment {blanks comment : List Byte} (number : ℕ)
    (hblanks : ∀ c ∈ blanks, lexerIsWhitespace c = true) (hcomment : IsComment comment) :
    itemsFrom number (blanks ++ comment) = [] := by
  rw [itemsFrom_eq, skipBlanks_run hblanks, skipBlanks_comment hcomment]
  rfl

theorem textLines_comment (number : ℕ) {comment : List Byte} (h : IsComment comment) :
    textLines number comment = [] ∧ ∀ rest,
      textLines number (comment ++ newline :: rest) = .blank :: textLines (number + 1) rest := by
  have hitems : itemsFrom number comment = [] := @itemsFrom_comment [] comment number nofun h
  constructor
  · rw [textLines, hitems]
    rfl
  · intro rest
    refine textLines_blank (colonEnds rest) ?_ ?_
    · rw [List.length_append, List.length_cons]
      omega
    · rw [itemsFrom_line h.1 h.2.1 (by rw [hitems]; exact nofun), hitems]
      rfl

section label

variable {indent name gap blanks comment : List Byte}
  (hindent : ∀ c ∈ indent, lexerIsWhitespace c = true)
  (hname : ∀ c ∈ name, lexerIsAlnum c = true) (hhead : lexerIsAlpha (name.headD 0#8) = true)
  (hregister : isRegisterToken name = false) (hlength : name.length ≤ 255)
  (hgap : ∀ c ∈ gap, lexerIsWhitespace c = true) (hblanks : ∀ c ∈ blanks, c = 0x20#8 ∨ c = 0x09#8)
  (hcomment : IsComment comment)

theorem white_of_blank {c : Byte} (h : c = 0x20#8 ∨ c = 0x09#8) : lexerIsWhitespace c = true := by
  rcases h with rfl | rfl <;> rfl

include hgap hblanks hcomment in
theorem colonEnds_colon : colonEnds (gap ++ ch ':' :: (blanks ++ comment)) = true := by
  have hstop : rawLine comment = [] := by
    cases comment with
    | nil => rfl
    | cons c comment =>
      obtain rfl : c = ch ';' := hcomment.2.2
      rfl
  refine colonEnds_iff.mpr ⟨gap, blanks, ?_, hblanks⟩
  rw [rawLine_blanks hgap, rawLine_colon, rawLine_blanks fun c hc => white_of_blank (hblanks c hc),
    hstop, List.append_nil]

include hgap in
theorem not_alnum_behind (behind : List Byte) :
    lexerIsAlnum ((gap ++ ch ':' :: behind).headD 0#8) = false := by
  cases gap with
  | nil => rfl
  | cons c gap =>
    have hc := hgap c (List.mem_cons_self ..)
    simp only [lexerIsWhitespace, Bool.or_eq_true, decide_eq_true_eq] at hc
    rcases hc with (rfl | rfl) | rfl <;> rfl

include hgap in
theorem itemsFrom_colon (number : ℕ) (behind : List Byte) :
    itemsFrom number (gap ++ ch ':' :: behind) =
      ⟨signLexeme .colon (ch ':'), number, colonEnds behind⟩ :: itemsFrom number behind := by
  have hskip : skipBlanks (ch ':' :: behind) = ch ':' :: behind :=
    skipBlanks_cons rfl (by decide)
  rw [itemsFrom_eq, skipBlanks_run hgap, hskip]
  rfl

include hindent hname hhead hlength hgap in
/-- A word and a colon behind it. -/
theorem itemsFrom_word (number : ℕ) (behind : List Byte) :
    itemsFrom number (indent ++ (name ++ (gap ++ ch ':' :: behind))) =
      ⟨nameLexeme name, number, colonEnds (gap ++ ch ':' :: behind)⟩ ::
        ⟨signLexeme .colon (ch ':'), number, colonEnds behind⟩ :: itemsFrom number behind := by
  obtain ⟨hskip, hscan⟩ := scanToken_name hname hhead hlength (not_alnum_behind hgap behind)
  have hends : ∀ register : Bool, (if register then TokenType.register else .identifier) ≠ .eof ∧
      (if register then TokenType.register else .identifier) ≠ .newline := by decide
  rw [itemsFrom_eq, skipBlanks_run hindent, hskip, hscan]
  dsimp only
  rw [List.drop_left, if_neg (hends _).1, if_neg (hends _).2, itemsFrom_colon hgap]
  rfl

include hindent hname hhead hlength hgap hblanks hcomment

theorem itemsFrom_label (number : ℕ) :
    itemsFrom number (indent ++ (name ++ (gap ++ ch ':' :: (blanks ++ comment)))) =
      [⟨nameLexeme name, number, true⟩,
        ⟨signLexeme .colon (ch ':'), number, colonEnds (blanks ++ comment)⟩] := by
  have hnone := itemsFrom_comment number (fun c hc => white_of_blank (hblanks c hc)) hcomment
  rw [itemsFrom_word hindent hname hhead hlength hgap, colonEnds_colon hgap hblanks hcomment, hnone]

include hregister

theorem lineOf_labelLine (number : ℕ) (more : List Item)
    (hmore : (headLexeme more).type = .newline ∨ more = []) :
    lineOf (itemsFrom number (indent ++ (name ++ (gap ++ ch ':' :: (blanks ++ comment)))) ++ more) =
      .ok (.label (.ofBytes 255 name) number) more := by
  have hitems := itemsFrom_label hindent hname hhead hlength hgap hblanks hcomment number
  rw [hitems, nameLexeme, hregister]
  have hskip : more.dropWhile (fun item => item.lexeme.type ≠ .newline) = more := by
    cases more with
    | nil => rfl
    | cons item more =>
      rcases hmore with hn | hn
      · have hitem : item.lexeme.type = .newline := hn
        exact List.dropWhile_cons_of_neg (by rw [hitem]; decide)
      · cases hn
  exact congrArg (Parse.ok _) hskip

/-- A label's line defines it, and the next line follows. -/
theorem textLines_label (number : ℕ)
    (hplain : 0#8 ∉ indent ++ (name ++ (gap ++ ch ':' :: (blanks ++ comment))) ∧
      newline ∉ indent ++ (name ++ (gap ++ ch ':' :: (blanks ++ comment)))) :
    textLines number (indent ++ (name ++ (gap ++ ch ':' :: (blanks ++ comment)))) =
        [.label (.ofBytes 255 name) number] ∧
      ∀ rest, textLines number
          (indent ++ (name ++ (gap ++ ch ':' :: (blanks ++ comment))) ++ newline :: rest) =
        .label (.ofBytes 255 name) number :: .blank :: textLines (number + 1) rest := by
  have hitems := itemsFrom_label hindent hname hhead hlength hgap hblanks hcomment number
  have hline := lineOf_labelLine hindent hname hhead hregister hlength hgap hblanks hcomment number
  have hlast := hline [] (.inr rfl)
  rw [List.append_nil] at hlast
  refine ⟨textLines_last hlast, fun rest => textLines_next (colonEnds rest) ?_ ?_⟩
  · rw [@List.length_append _ _ (newline :: rest), List.length_cons]
    omega
  · rw [itemsFrom_line hplain.1 hplain.2]
    · exact hline _ (.inl rfl)
    · rw [hitems, nameLexeme, hregister]
      exact known_cons nofun (known_cons nofun nofun)

end label

theorem headLexeme_itemsFrom (number : ℕ) (text : List Byte) :
    (headLexeme (itemsFrom number text)).type = (scanToken (skipBlanks text)).type := by
  rw [itemsFrom_eq]
  dsimp only
  split
  · rename_i heof
    exact heof.symm
  · rfl

/-- No instruction takes a colon. -/
theorem instructionOf_colon {token colon : Item} {items rest : List Item} {inst : ParsedInstruction}
    (hcolon : colon.lexeme.type = .colon)
    (h : instructionOf (token :: colon :: items) = .ok inst rest) :
    inst.operands = [] ∧ rest = colon :: items := by
  have hoperand : operandOf (colon :: items) = .fail := by
    unfold operandOf
    dsimp only [headLexeme, List.head?_cons, Option.map_some, Option.getD_some]
    rw [hcolon]
  unfold instructionOf at h
  dsimp only [List.tail_cons] at h
  split_ifs at h
  split at h
  · cases h
  · rename_i type n hname
    obtain ⟨operands, behind, hoperands, h⟩ := Parse.bind_eq_ok h
    obtain ⟨rfl, rfl⟩ := Parse.ok.inj h
    cases n with
    | zero =>
      cases hoperands
      exact ⟨rfl, rfl⟩
    | succ n =>
      rw [operandsOf, if_neg (fun hno => absurd hno.1 (lt_irrefl 0)), if_neg (lt_irrefl 0),
        hoperand] at hoperands
      cases hoperands

/-- A word with a colon behind it is no instruction. -/
theorem not_instruction_of_colon {indent name gap behind : List Byte} {inst : ParsedInstruction}
    (hindent : ∀ c ∈ indent, lexerIsWhitespace c = true) (hne : name ≠ [])
    (hname : ∀ c ∈ name, lexerIsAlnum c = true) (hlength : name.length ≤ 255)
    (hgap : ∀ c ∈ gap, lexerIsWhitespace c = true) :
    lineOf (itemsFrom number (indent ++ (name ++ (gap ++ ch ':' :: behind)))) ≠
      .ok (.instruction inst) [] := by
  intro h
  obtain ⟨htype, -, -, hread⟩ := readsInstruction_iff.mp h
  rw [headLexeme_itemsFrom, skipBlanks_run hindent] at htype
  by_cases hhead : lexerIsAlpha (name.headD 0#8) = true
  · rw [itemsFrom_word hindent hname hhead hlength hgap] at hread
    cases (instructionOf_colon rfl hread).2
  · -- the word starts with a digit
    cases name with
    | nil => exact hne rfl
    | cons c name =>
      have hc := hname c (List.mem_cons_self ..)
      have hdigit : lexerIsDigit c = true := by
        rw [lexerIsAlnum, Bool.or_eq_true] at hc
        exact hc.resolve_left hhead
      obtain ⟨hscan, hskip⟩ := @scanToken_of_alnum (name ++ (gap ++ ch ':' :: behind)) c hc
      rw [List.cons_append, hskip, hscan, if_pos hdigit, scanNumber_type] at htype
      cases htype

end text

end Dez.Assembler
