import Dez.Assembler.Grammar

/-! Texts put together from the spellings of tokens. -/
namespace Dez.Assembler

/-- A text of one line without a colon, and the tokens it spells. -/
def Spells (text : List Byte) (lexemes : List Lexeme) : Prop :=
  ch ':' ∉ text ∧ itemsFrom 1 text = lexemes.map fun lexeme => ⟨lexeme, 1, false⟩

def nameLexeme (name : List Byte) : Lexeme :=
  ⟨if isRegisterToken name then .register else .identifier, .ofBytes 255 name, 0⟩

def numberLexeme (digits : List Byte) : Lexeme :=
  ⟨.number, .ofBytes 255 digits, strtoul digits 10⟩

def signLexeme (type : TokenType) (c : Byte) : Lexeme := ⟨type, .ofBytes 255 [c], 0⟩

variable {text : List Byte} {lexemes : List Lexeme} {c : Byte}

theorem colonEnds_eq_false (h : ch ':' ∉ text) : colonEnds text = false := by
  unfold colonEnds
  rw [decide_eq_false_iff_not]
  intro hhead
  have hmem := List.mem_of_mem_head? hhead
  have htake := List.mem_reverse.mp ((List.dropWhile_suffix _).subset hmem)
  exact h ((List.takeWhile_prefix _).subset htake)

theorem spells_nil : Spells [] [] := ⟨List.not_mem_nil, rfl⟩

theorem spells_blank (h : Spells text lexemes) : Spells (0x20#8 :: text) lexemes := by
  have hskip : skipBlanks (0x20#8 :: text) = skipBlanks text := by
    unfold skipBlanks
    rw [List.dropWhile_cons_of_pos (by decide)]
  refine ⟨?_, ?_⟩
  · rw [List.mem_cons]
    rintro (hc | hc)
    · cases hc
    · exact h.1 hc
  · rw [← h.2, itemsFrom_eq, itemsFrom_eq, hskip]

/-- A text that starts with a token. -/
theorem itemsFrom_cons {rest : List Byte} {scanned : Scanned} (hskip : skipBlanks text = text)
    (hscan : scanToken text = scanned) (hrest : text.drop scanned.length = rest)
    (heof : scanned.type ≠ .eof) (hnewline : scanned.type ≠ .newline) (hcolon : ch ':' ∉ rest) :
    itemsFrom 1 text =
      ⟨⟨scanned.type, .ofBytes 255 scanned.text, scanned.number⟩, 1, false⟩ ::
        itemsFrom 1 rest := by
  rw [itemsFrom_eq, hskip, hscan]
  dsimp only
  rw [hrest, if_neg heof, if_neg hnewline, colonEnds_eq_false hcolon]

theorem spells_cons {rest : List Byte} {scanned : Scanned} (hskip : skipBlanks text = text)
    (hscan : scanToken text = scanned) (hrest : text.drop scanned.length = rest)
    (heof : scanned.type ≠ .eof) (hnewline : scanned.type ≠ .newline) (hcolon : ch ':' ∉ text)
    (h : Spells rest lexemes) :
    Spells text (⟨scanned.type, .ofBytes 255 scanned.text, scanned.number⟩ :: lexemes) := by
  refine ⟨hcolon, ?_⟩
  rw [itemsFrom_cons hskip hscan hrest heof hnewline h.1, h.2]
  rfl

theorem ne_of_alnum (h : lexerIsAlnum c = true) {d : Byte} (hd : lexerIsAlnum d = false) :
    c ≠ d := by
  rintro rfl
  rw [h] at hd
  cases hd

theorem punctuation_of_alnum (h : lexerIsAlnum c = true) : punctuation c = none := by
  unfold punctuation
  rw [if_neg (ne_of_alnum h rfl), if_neg (ne_of_alnum h rfl), if_neg (ne_of_alnum h rfl),
    if_neg (ne_of_alnum h rfl), if_neg (ne_of_alnum h rfl), if_neg (ne_of_alnum h rfl)]

theorem whitespace_of_alnum (h : lexerIsAlnum c = true) : lexerIsWhitespace c = false := by
  simp only [lexerIsWhitespace, Bool.or_eq_false_iff, decide_eq_false_iff_not]
  exact ⟨⟨ne_of_alnum h rfl, ne_of_alnum h rfl⟩, ne_of_alnum h rfl⟩

theorem scanToken_of_alnum (h : lexerIsAlnum c = true) :
    scanToken (c :: text) =
      (if lexerIsDigit c then scanNumber c text else scanName c text) ∧
      skipBlanks (c :: text) = c :: text := by
  refine ⟨?_, skipBlanks_cons (whitespace_of_alnum h) (ne_of_alnum h rfl)⟩
  rw [scanToken, if_neg (ne_of_alnum h rfl), punctuation_of_alnum h]
  dsimp only
  rw [if_neg (ne_of_alnum h rfl), if_neg (ne_of_alnum h rfl)]
  cases hdigit : lexerIsDigit c with
  | true => rfl
  | false =>
    rw [lexerIsAlnum, hdigit, Bool.or_false] at h
    rw [if_neg Bool.false_ne_true, if_pos h, if_neg Bool.false_ne_true]

/-- A run of characters that pass a test ends at the first that does not. -/
theorem takeWhile_run {p : Byte → Bool} {run : List Byte} (hrun : ∀ d ∈ run, p d = true)
    (hbehind : p (text.headD 0#8) = false) : (run ++ text).takeWhile p = run := by
  rw [List.takeWhile_append_of_pos hrun]
  cases text with
  | nil => rw [List.takeWhile_nil, List.append_nil]
  | cons d text =>
    rw [List.headD_cons] at hbehind
    rw [List.takeWhile_cons_of_neg (by rw [hbehind]; exact Bool.false_ne_true), List.append_nil]

theorem colon_notMem_run {run : List Byte} (hrun : ∀ d ∈ run, lexerIsAlnum d = true)
    (h : ch ':' ∉ text) : ch ':' ∉ run ++ text := by
  rw [List.mem_append]
  rintro (hc | hc)
  · cases hrun _ hc
  · exact h hc

section name

variable {name : List Byte} (hname : ∀ d ∈ name, lexerIsAlnum d = true)
  (hhead : lexerIsAlpha (name.headD 0#8) = true) (hlength : name.length ≤ 255)
  (hbehind : lexerIsAlnum (text.headD 0#8) = false)

include hname hhead hlength hbehind

theorem scanToken_name :
    skipBlanks (name ++ text) = name ++ text ∧
      scanToken (name ++ text) = ⟨if isRegisterToken name then .register else .identifier, name, 0,
        name.length⟩ := by
  cases name with
  | nil => cases hhead
  | cons c name =>
    have hdigit : lexerIsDigit c = false := by
      rw [List.headD_cons] at hhead
      simp only [lexerIsAlpha, lexerIsDigit, Bool.or_eq_true, Bool.and_eq_true, decide_eq_true_eq,
        Bool.and_eq_false_iff, decide_eq_false_iff_not] at *
      omega
    obtain ⟨hscan, hskip⟩ := @scanToken_of_alnum (name ++ text) c
      (hname c (List.mem_cons_self ..))
    have hrun : ((c :: (name ++ text)).takeWhile lexerIsAlnum).take 255 = c :: name := by
      rw [← List.cons_append, takeWhile_run hname hbehind, List.take_of_length_le hlength]
    rw [hdigit, if_neg Bool.false_ne_true, scanName, hrun] at hscan
    exact ⟨hskip, hscan⟩

theorem itemsFrom_name (hcolon : ch ':' ∉ text) :
    itemsFrom 1 (name ++ text) = ⟨nameLexeme name, 1, false⟩ :: itemsFrom 1 text := by
  obtain ⟨hskip, hscan⟩ := scanToken_name hname hhead hlength hbehind
  exact itemsFrom_cons hskip hscan List.drop_left (by dsimp only; split <;> exact nofun)
    (by dsimp only; split <;> exact nofun) hcolon

theorem spells_name (h : Spells text lexemes) :
    Spells (name ++ text) (nameLexeme name :: lexemes) := by
  refine ⟨colon_notMem_run hname h.1, ?_⟩
  rw [itemsFrom_name hname hhead hlength hbehind h.1, h.2]
  rfl

end name

section digits

variable {digits : List Byte} (hdigits : ∀ d ∈ digits, lexerIsDigit d = true) (hne : digits ≠ [])
  (hlength : digits.length ≤ 255) (hbehind : lexerIsAlnum (text.headD 0#8) = false)

include hdigits hne hlength hbehind

theorem scanToken_digits :
    skipBlanks (digits ++ text) = digits ++ text ∧
      scanToken (digits ++ text) = ⟨.number, digits, strtoul digits 10, digits.length⟩ := by
  have hdigit : lexerIsDigit (text.headD 0#8) = false := (Bool.or_eq_false_iff.mp hbehind).2
  cases digits with
  | nil => exact absurd rfl hne
  | cons c digits =>
    -- no letter of a prefix follows the first digit
    have hmark : ∀ d, lexerIsAlpha d = true → lexerIsDigit d = false →
        (digits ++ text).headD 0#8 ≠ d := by
      rintro d halpha hd rfl
      cases digits with
      | nil =>
        rw [List.nil_append, lexerIsAlnum] at *
        rw [halpha] at hbehind
        cases hbehind
      | cons d digits =>
        rw [List.cons_append, List.headD_cons] at hd
        rw [hdigits d (by simp)] at hd
        cases hd
    obtain ⟨hscan, hskip⟩ := @scanToken_of_alnum (digits ++ text) c
      (alnum_of_digit (hdigits c (List.mem_cons_self ..)))
    have hrun : ((c :: (digits ++ text)).takeWhile lexerIsDigit).take 255 = c :: digits := by
      rw [← List.cons_append, takeWhile_run hdigits hdigit, List.take_of_length_le hlength]
    rw [hdigits c (List.mem_cons_self ..), if_pos rfl, scanNumber,
      decide_eq_false (hmark _ rfl rfl), decide_eq_false (hmark _ rfl rfl), Bool.and_false,
      if_neg Bool.false_ne_true, if_neg Bool.false_ne_true, hrun] at hscan
    exact ⟨hskip, hscan⟩

theorem spells_number (h : Spells text lexemes) :
    Spells (digits ++ text) (numberLexeme digits :: lexemes) := by
  obtain ⟨hskip, hscan⟩ := scanToken_digits hdigits hne hlength hbehind
  have hcolon := colon_notMem_run (fun d hd => alnum_of_digit (hdigits d hd)) h.1
  exact spells_cons hskip hscan List.drop_left (fun ht => by cases ht) (fun ht => by cases ht)
    hcolon h

end digits

theorem spells_sign {type : TokenType} (hc : punctuation c = some type) (hcolon : c ≠ ch ':')
    (hplain : type ≠ .newline ∧ type ≠ .eof) (hblank : lexerIsWhitespace c = false)
    (h : Spells text lexemes) : Spells (c :: text) (signLexeme type c :: lexemes) := by
  have hne : c ≠ 0#8 ∧ c ≠ ch ';' := by
    constructor
    · rintro rfl
      cases hc
    · rintro rfl
      cases hc
  have hscan : scanToken (c :: text) = ⟨type, [c], 0, 1⟩ := by
    rw [scanToken, if_neg hne.1, hc]
  refine spells_cons (skipBlanks_cons hblank hne.2) hscan rfl hplain.2 hplain.1 ?_ h
  rw [List.mem_cons]
  rintro (h' | h')
  · exact hcolon h'.symm
  · exact h.1 h'

end Dez.Assembler
