import Dez.Assembler.Scan

/-! What the lexer's checked loops come to: the token, or an `int` that overflows. -/
namespace Dez.Assembler

/-- The lexer stands in a text that holds no NUL, and its counts are no further than its place. -/
structure Lexer.InText (lexer : Lexer) : Prop where
  within : lexer.position ≤ lexer.input.length
  text : 0#8 ∉ lexer.input
  line : 1 ≤ lexer.line ∧ lexer.line ≤ lexer.position + 1
  first : lexer.line = 1 → lexer.column = lexer.position + 1
  later : 1 < lexer.line → lexer.column ≤ lexer.position

theorem Lexer.InText.skip {lexer : Lexer} (h : lexer.InText) {n : ℕ} (hn : n ≤ lexer.rest.length) :
    (lexer.skip n).InText := by
  have hlength : lexer.rest.length = lexer.input.length - lexer.position := List.length_drop
  obtain ⟨hwithin, htext, hline, hfirst, hlater⟩ := h
  constructor <;> simp only [Lexer.skip]
  · omega
  · exact htext
  · omega
  · omega
  · omega

/-- The lexer can pass so many characters of its line, counting them in an `int`. -/
def Lexer.Fits (lexer : Lexer) (n : ℕ) : Prop :=
  0 < n → lexer.position + n < 2 ^ 31 ∧ lexer.column + n < 2 ^ 31

/-- `(int)strlen(input)` -/
def strlenInt (lexer : Lexer) : ℤ := (BitVec.ofNat 32 lexer.input.length).toInt

/-- The digits of a number behind `0x` or `0b` at the front of a text. -/
def prefixDigits : List Byte → ℕ
  | zero :: mark :: text =>
    if zero = ch '0' ∧ mark = ch 'x' then ((text.takeWhile isHexDigit).take 253).length
    else if zero = ch '0' ∧ mark = ch 'b' then ((text.takeWhile isBinDigit).take 253).length
    else 0
  | _ => 0

/-- The length of the text, as an `int`, does not cut the number in front short. -/
def Lexer.DigitsSeen (lexer : Lexer) : Prop :=
  0 < prefixDigits lexer.rest →
    (lexer.position + 2 + prefixDigits lexer.rest : ℤ) ≤ strlenInt lexer

/-- The token in front can be passed. -/
def Lexer.TokenFits (lexer : Lexer) : Prop :=
  if (scanToken lexer.rest).type = .newline then
    lexer.position + 1 < 2 ^ 31 ∧ lexer.line + 1 < 2 ^ 31
  else lexer.Fits (scanToken lexer.rest).length

/-- What stands up to the end of the line or a comment. -/
def lineRun (text : List Byte) : List Byte :=
  text.takeWhile fun c => c != 0#8 && c != newline && c != ch ';'

/-- Such digits stand behind the prefix, in the text. -/
theorem prefixDigits_le {text : List Byte} (h : 0 < prefixDigits text) :
    prefixDigits text + 2 ≤ text.length ∧ ch '0' ∈ text := by
  have hle : ∀ (digit : Byte → Bool) (text : List Byte),
      ((text.takeWhile digit).take 253).length ≤ text.length := fun digit text =>
    ((List.take_prefix 253 _).trans (List.takeWhile_prefix digit)).length_le
  match text, h with
  | zero :: mark :: text, h =>
    rw [prefixDigits] at h ⊢
    by_cases hx : zero = ch '0' ∧ mark = ch 'x'
    · rw [if_pos hx]
      exact ⟨Nat.add_le_add_right (hle ..) 2, hx.1 ▸ List.mem_cons_self⟩
    · rw [if_neg hx] at h ⊢
      by_cases hb : zero = ch '0' ∧ mark = ch 'b'
      · rw [if_pos hb]
        exact ⟨Nat.add_le_add_right (hle ..) 2, hb.1 ▸ List.mem_cons_self⟩
      · rw [if_neg hb] at h
        cases h
  | [], h => cases h
  | [_], h => cases h

theorem digitsSeen_of_ne {lexer : Lexer} {c : Byte} {text : List Byte} (hc : c ≠ ch '0')
    (hrest : lexer.rest = c :: text) : lexer.DigitsSeen := by
  have hnone : prefixDigits lexer.rest = 0 := by
    rw [hrest]
    cases text with
    | nil => rfl
    | cons mark text => simp [prefixDigits, hc]
  intro hdigits
  omega

instance (lexer : Lexer) (n : ℕ) : Decidable (lexer.Fits n) :=
  inferInstanceAs (Decidable (0 < n → _))

theorem Lexer.fits_add (lexer : Lexer) (m n : ℕ) :
    lexer.Fits (m + n) ↔ lexer.Fits m ∧ (lexer.skip m).Fits n := by
  simp only [Lexer.Fits, Lexer.skip]
  constructor
  · intro h
    constructor <;> omega
  · intro h h0
    omega

/-- A computation that counts: its result, unless an `int` overflows on the way. -/
def counting {α : Type} (fits : Prop) [Decidable fits] (result : α) : Except ScanFault α :=
  if fits then .ok result else .error .intOverflow

section counting

variable {α β : Type} {p q : Prop} [Decidable p] [Decidable q] {a c : α} {b : β}

theorem counting_ok_iff : counting p a = .ok a ↔ p := by
  unfold counting
  split
  · exact iff_of_true rfl ‹p›
  · exact iff_of_false nofun ‹¬ p›

theorem counting_pair_ok_iff {last : Lexer} :
    counting p (a, last) = .ok (c, last) ↔ c = a ∧ p := by
  unfold counting
  split
  · rw [Except.ok.injEq, Prod.mk.injEq, and_iff_left rfl, eq_comm]
    exact (and_iff_left ‹p›).symm
  · exact iff_of_false nofun fun h => ‹¬ p› h.2

theorem counting_of (h : p) (a : α) : counting p a = .ok a := counting_ok_iff.mpr h

theorem counting_error (h : ¬ p) (a : α) : counting p a = .error .intOverflow := if_neg h

theorem counting_congr (h : p ↔ q) (a : α) : counting p a = counting q a :=
  if_congr h rfl rfl

theorem counting_bind {f : α → Except ScanFault β} (h : f a = counting q b) :
    (counting p a >>= f) = counting (p ∧ q) b := by
  unfold counting at h ⊢
  by_cases hp : p
  · rw [if_pos hp, ok_bind, h]
    exact if_congr (and_iff_right hp).symm rfl rfl
  · rw [if_neg hp, if_neg fun hpq => hp hpq.1]
    rfl

theorem counting_bind_ok_iff {f : α → Except ScanFault β} :
    (counting p a >>= f) = .ok b ↔ p ∧ f a = .ok b := by
  unfold counting
  split
  · exact (and_iff_right ‹p›).symm
  · exact iff_of_false nofun fun hpq => ‹¬ p› hpq.1

end counting

theorem skip_skip (lexer : Lexer) (m n : ℕ) : (lexer.skip m).skip n = lexer.skip (m + n) := by
  simp only [Lexer.skip, Nat.add_assoc]

/-- The characters of the blanks and the comment in front of a token. -/
def blanks (text : List Byte) : ℕ := text.length - (skipBlanks text).length

theorem blanks_le (text : List Byte) : blanks text ≤ text.length := Nat.sub_le ..

theorem blanks_cons {c : Byte} (hblank : lexerIsWhitespace c = true) (text : List Byte) :
    blanks (c :: text) = 1 + blanks text := by
  have hle := length_skipBlanks text
  rw [blanks, blanks, skipBlanks_blank hblank, List.length_cons]
  omega

theorem blanks_comment (text : List Byte) : blanks (ch ';' :: text) =
    ((ch ';' :: text).takeWhile fun c => c != 0#8 && c != newline).length := by
  have hsplit := congrArg List.length (List.takeWhile_append_dropWhile
    (p := fun c : Byte => c != 0#8 && c != newline) (l := ch ';' :: text))
  rw [List.length_append] at hsplit
  rw [blanks, skipBlanks, List.dropWhile_cons_of_neg (by decide), List.headD_cons, if_pos rfl]
  exact (Nat.eq_sub_of_add_eq hsplit).symm

theorem blanks_token {c : Byte} (hblank : lexerIsWhitespace c = false) (hcomment : c ≠ ch ';')
    (text : List Byte) : blanks (c :: text) = 0 := by
  rw [blanks, skipBlanks_cons hblank hcomment, Nat.sub_self]

theorem skipWhitespace_blanks (lexer : Lexer) :
    lexerSkipWhitespace lexer = lexer.skip (blanks lexer.rest) := by
  have hskip : ∃ n ≤ lexer.rest.length, lexerSkipWhitespace lexer = lexer.skip n := by
    have hblanks := (List.takeWhile_prefix (l := lexer.rest) lexerIsWhitespace).length_le
    unfold lexerSkipWhitespace lexerSkipComment
    dsimp only
    split
    · refine ⟨_, Nat.add_le_of_le_sub' hblanks ?_, skip_skip ..⟩
      rw [← length_rest_skip]
      exact (List.takeWhile_prefix _).length_le
    · exact ⟨_, hblanks, rfl⟩
  obtain ⟨n, hn, hskip⟩ := hskip
  have hrest := congrArg List.length (rest_skipWhitespace lexer)
  rw [hskip, length_rest_skip] at hrest
  rw [hskip, blanks, ← hrest, Nat.sub_sub_self hn]

namespace Checked

variable {lexer : Lexer} {test : Byte → Bool}

theorem charAt_eq {i : ℕ} (h : i ≤ lexer.input.length) :
    charAt lexer i = .ok ((lexer.input.drop i).headD 0#8) := by
  unfold charAt
  split_ifs with hlt heq
  · rw [List.drop_eq_getElem_cons hlt, List.headD_cons]
  · rw [List.drop_of_length_le heq.ge, List.headD_nil]
  · omega

theorem charAt_position (h : lexer.InText) :
    charAt lexer lexer.position = .ok (lexer.rest.headD 0#8) := charAt_eq h.within

theorem addOne_eq (i : ℕ) : addOne i = counting (i + 1 < 2 ^ 31) (i + 1) := rfl

theorem rest_ne_zero (h : lexer.InText) {c : Byte} (hc : c ∈ lexer.rest) : c ≠ 0#8 := by
  rintro rfl
  exact h.text (List.mem_of_mem_drop hc)

theorem step_eq (lexer : Lexer) : step lexer = counting (lexer.Fits 1) (lexer.skip 1) := by
  unfold step
  rw [addOne_eq, counting_bind (b := lexer.skip 1) (q := lexer.column + 1 < 2 ^ 31)]
  · refine counting_congr ?_ _
    simp [Lexer.Fits]
  · rw [addOne_eq, counting_bind (b := lexer.skip 1) (q := True)]
    · exact counting_congr (and_iff_left trivial) _
    · exact (counting_of trivial _).symm

theorem stepWhile_eq (test : Byte → Bool) (h : lexer.InText) (h0 : test 0#8 = false) :
    stepWhile test lexer = counting (lexer.Fits (lexer.rest.takeWhile test).length)
      (lexer.skip (lexer.rest.takeWhile test).length) := by
  induction hrest : lexer.rest generalizing lexer with
  | nil =>
    rw [stepWhile, charAt_position h, hrest]
    simp only [List.headD_nil, h0, Bool.false_eq_true, if_false]
    exact (counting_of nofun _).symm
  | cons c rest ih =>
    have hpos : 1 ≤ lexer.rest.length := by simp [hrest]
    rw [stepWhile, charAt_position h, hrest]
    dsimp only
    rw [List.headD_cons, List.takeWhile_cons]
    cases htest : test c with
    | false => exact (counting_of nofun _).symm
    | true =>
      have hnext := ih (h.skip hpos) (by rw [rest_skip, hrest]; rfl)
      have hadd := lexer.fits_add 1 (rest.takeWhile test).length
      rw [skip_skip] at hnext
      rw [if_pos rfl, step_eq, if_pos rfl, List.length_cons, Nat.add_comm _ 1,
        counting_congr hadd, ← counting_bind hnext]
      by_cases hfits : lexer.Fits 1
      · rw [counting_of hfits]
        rfl
      · rw [counting_error hfits]
        rfl


/-- Behind a comment the blanks are over. -/
theorem lexerSkipWhitespace_stop (h : lexer.InText)
    (hend : (lexer.rest.headD 0#8 != 0#8 && lexer.rest.headD 0#8 != newline) = false) :
    lexerSkipWhitespace lexer = .ok lexer := by
  rw [lexerSkipWhitespace, charAt_position h]
  dsimp only
  generalize lexer.rest.headD 0#8 = c at hend
  simp only [Bool.and_eq_false_iff, bne_eq_false_iff_eq] at hend
  rcases hend with rfl | rfl
  · rfl
  · rfl

theorem skipComment_eq (h : lexer.InText) :
    (lexerSkipComment lexer >>= lexerSkipWhitespace) =
      counting (lexer.Fits (lexer.rest.takeWhile fun c => c != 0#8 && c != newline).length)
        (lexer.skip (lexer.rest.takeWhile fun c => c != 0#8 && c != newline).length) := by
  have hin := h.skip (List.takeWhile_prefix (l := lexer.rest)
    fun c => c != 0#8 && c != newline).length_le
  rw [lexerSkipComment, stepWhile_eq _ h rfl, counting_bind (q := True)]
  · exact counting_congr (and_iff_left trivial) _
  · rw [counting_of trivial, lexerSkipWhitespace_stop hin]
    rw [rest_skip, drop_length_takeWhile]
    cases hdrop : lexer.rest.dropWhile fun c => c != 0#8 && c != newline with
    | nil => rfl
    | cons d tail =>
      have hhead := List.head?_dropWhile_not (fun c => c != 0#8 && c != newline) lexer.rest
      rw [hdrop] at hhead
      simpa using hhead

theorem lexerSkipWhitespace_eq (h : lexer.InText) : lexerSkipWhitespace lexer =
    counting (lexer.Fits (blanks lexer.rest)) (Assembler.lexerSkipWhitespace lexer) := by
  rw [skipWhitespace_blanks]
  induction hrest : lexer.rest generalizing lexer with
  | nil =>
    rw [lexerSkipWhitespace, charAt_position h, hrest]
    exact (counting_of nofun _).symm
  | cons c rest ih =>
    have hpos : 1 ≤ lexer.rest.length := by simp [hrest]
    have hc : c ≠ 0#8 := rest_ne_zero h (by simp [hrest])
    rw [lexerSkipWhitespace, charAt_position h, hrest]
    dsimp only
    rw [List.headD_cons, if_neg hc]
    cases hblank : lexerIsWhitespace c with
    | true =>
      have hnext := ih (h.skip hpos) (by rw [rest_skip, hrest]; rfl)
      rw [skip_skip] at hnext
      rw [if_pos rfl, step_eq, blanks_cons hblank, counting_congr (lexer.fits_add ..),
        ← counting_bind hnext]
      by_cases hfits : lexer.Fits 1
      · rw [counting_of hfits]
        rfl
      · rw [counting_error hfits]
        rfl
    | false =>
      rw [if_neg Bool.false_ne_true]
      by_cases hcomment : c = ch ';'
      · subst hcomment
        have hskip := skipComment_eq h
        rw [hrest] at hskip
        rw [if_pos rfl, blanks_comment, ← hskip]
        cases lexerSkipComment lexer with
        | error fault => rfl
        | ok next => rfl
      · rw [if_neg hcomment, blanks_token hblank hcomment]
        exact (counting_of nofun _).symm

/-- A loop that copies while characters pass a test copies the run of them, as far as there is
room. -/
theorem copyWhile_eq (test : Byte → Bool) (h : lexer.InText) (h0 : test 0#8 = false) (room : ℕ) :
    copyWhile test room lexer =
      counting (lexer.Fits ((lexer.rest.takeWhile test).take room).length)
        ((lexer.rest.takeWhile test).take room,
          lexer.skip ((lexer.rest.takeWhile test).take room).length) := by
  induction room generalizing lexer with
  | zero =>
    rw [copyWhile, charAt_position h, List.take_zero]
    exact (counting_of nofun _).symm
  | succ room ih =>
    rw [copyWhile, charAt_position h]
    cases hrest : lexer.rest with
    | nil =>
      rw [List.headD_nil, ok_bind, h0]
      exact (counting_of nofun _).symm
    | cons c rest =>
      have hpos : 1 ≤ lexer.rest.length := by simp [hrest]
      rw [List.headD_cons, ok_bind, List.takeWhile_cons]
      cases htest : test c with
      | false => exact (counting_of nofun _).symm
      | true =>
        have hnext := ih (h.skip hpos)
        rw [rest_skip, hrest, List.drop_one, List.tail_cons, skip_skip] at hnext
        rw [if_pos rfl, if_pos rfl, step_eq, List.take_succ_cons, List.length_cons,
          Nat.add_comm _ 1, counting_congr (lexer.fits_add ..)]
        apply counting_bind
        rw [hnext, counting_bind (q := True)]
        · exact counting_congr (and_iff_left trivial) _
        · exact (counting_of trivial _).symm

/-- The loop behind a prefix copies all the digits exactly if the length of the text, as an `int`,
lets it come to them. -/
theorem copyDigits_ok_iff (h : lexer.InText) {test : Byte → Bool} (h0 : test 0#8 = false)
    (room : ℕ) {digits : List Byte} :
    copyDigits test room lexer = .ok (digits,
        lexer.skip ((lexer.rest.takeWhile test).take room).length) ↔
      digits = (lexer.rest.takeWhile test).take room ∧
        lexer.Fits ((lexer.rest.takeWhile test).take room).length ∧
        (0 < ((lexer.rest.takeWhile test).take room).length →
          (lexer.position + ((lexer.rest.takeWhile test).take room).length : ℤ) ≤
            strlenInt lexer) := by
  have hnone : ∀ {lexer : Lexer} {digits : List Byte},
      (.ok ([], lexer) : Except ScanFault (List Byte × Lexer)) = .ok (digits, lexer.skip 0) ↔
        digits = [] ∧ lexer.Fits 0 ∧
          (0 < 0 → (lexer.position + (0 : ℕ) : ℤ) ≤ strlenInt lexer) := by
    intro lexer digits
    rw [show lexer.skip 0 = lexer from rfl, Except.ok.injEq, Prod.mk.injEq, and_iff_left rfl,
      eq_comm]
    exact (and_iff_left ⟨nofun, nofun⟩).symm
  induction room generalizing lexer digits with
  | zero =>
    rw [copyDigits, List.take_zero]
    exact hnone
  | succ room ih =>
    rw [copyDigits]
    cases hrest : lexer.rest with
    | nil =>
      rw [charAt_position h, hrest, List.headD_nil, ok_bind, h0]
      split
      · exact hnone
      · exact hnone
    | cons c rest =>
      have hpos : 1 ≤ lexer.rest.length := by simp [hrest]
      rw [charAt_position h, hrest, List.headD_cons, ok_bind, List.takeWhile_cons]
      cases htest : test c with
      | false =>
        split
        · exact hnone
        · exact hnone
      | true =>
        have hnext := @ih (lexer.skip 1) (h.skip hpos)
        rw [rest_skip, hrest, List.drop_one, List.tail_cons, skip_skip] at hnext
        simp only [if_true, List.take_succ_cons, List.length_cons]
        rw [Nat.add_comm _ 1, lexer.fits_add]
        have hlen : strlenInt (lexer.skip 1) = strlenInt lexer := rfl
        have hplace : ((lexer.skip 1).position : ℤ) = lexer.position + 1 := rfl
        rw [hlen, hplace] at hnext
        generalize (rest.takeWhile test).take room = copied at *
        split
        · rename_i hlt
          rw [step_eq, counting_bind_ok_iff]
          constructor
          · rintro ⟨hstep, hok⟩
            obtain ⟨⟨more, last⟩, hcopy, hcons⟩ := bind_eq_ok hok
            cases hcons
            obtain ⟨rfl, hfits, hseen⟩ := hnext.mp hcopy
            refine ⟨rfl, ⟨hstep, hfits⟩, fun _ => ?_⟩
            unfold strlenInt at *
            omega
          · rintro ⟨rfl, ⟨hstep, hfits⟩, hseen⟩
            refine ⟨hstep, ?_⟩
            rw [hnext.mpr ⟨rfl, hfits, fun hmore => ?_⟩]
            · rfl
            · have hall := hseen (by omega)
              push_cast at hall
              omega
        · rename_i hge
          refine iff_of_false ?_ ?_
          · intro hok
            have hplace := congrArg (fun result => result.2.position) (Except.ok.inj hok)
            simp only [Lexer.skip] at hplace
            omega
          · rintro ⟨-, -, hseen⟩
            have hall := hseen (by omega)
            unfold strlenInt at hall
            push_cast at hall
            omega

section tokens

variable {c : Byte} {text : List Byte} {scanned : Scanned}

theorem charAt_behind (h : lexer.InText) {n : ℕ} (hn : n ≤ lexer.rest.length) :
    charAt lexer (lexer.position + n) = .ok ((lexer.rest.drop n).headD 0#8) := by
  have hlength : lexer.rest.length = lexer.input.length - lexer.position := List.length_drop
  have hwithin := h.within
  rw [charAt_eq (by omega), Lexer.rest, List.drop_drop]

theorem scanPrefixed_ok_iff (h : lexer.InText) {mark : Byte} {digit : Byte → Bool}
    (h0 : digit 0#8 = false) (base : ℕ) (hrest : lexer.rest = c :: mark :: text) :
    scanPrefixed c mark digit base lexer = .ok (scanned,
        lexer.skip (Assembler.scanPrefixed c mark digit base text).length) ↔
      scanned = Assembler.scanPrefixed c mark digit base text ∧
        lexer.Fits (Assembler.scanPrefixed c mark digit base text).length ∧
        (0 < ((text.takeWhile digit).take 253).length →
          (lexer.position + 2 + ((text.takeWhile digit).take 253).length : ℤ) ≤
            strlenInt lexer) := by
  have hlength : lexer.rest.length = text.length + 2 := by simp [hrest]
  have hdigits := @copyDigits_ok_iff _ (h.skip (n := 2) (by omega)) _ h0 253
  rw [rest_skip, hrest, List.drop_succ_cons, List.drop_one, List.tail_cons, skip_skip] at hdigits
  unfold scanPrefixed
  rw [step_eq, counting_bind_ok_iff, step_eq, counting_bind_ok_iff, skip_skip,
    Assembler.scanPrefixed, lexer.fits_add, show 2 = 1 + 1 from rfl, lexer.fits_add]
  generalize (text.takeWhile digit).take 253 = ideal at *
  constructor
  · rintro ⟨hfirst, hsecond, hok⟩
    obtain ⟨⟨digits, last⟩, hcopy, htoken⟩ := bind_eq_ok hok
    cases htoken
    obtain ⟨rfl, hfits, hseen⟩ := hdigits.mp hcopy
    exact ⟨rfl, ⟨⟨hfirst, hsecond⟩, hfits⟩, hseen⟩
  · rintro ⟨rfl, ⟨⟨hfirst, hsecond⟩, hfits⟩, hseen⟩
    refine ⟨hfirst, hsecond, ?_⟩
    rw [hdigits.mpr ⟨rfl, hfits, hseen⟩]
    rfl

theorem charBehindZero_eq (h : lexer.InText) (hrest : lexer.rest = c :: text) :
    charBehindZero c lexer = counting (c = ch '0' → lexer.position + 1 < 2 ^ 31)
      (if c = ch '0' then text.headD 0#8 else 0#8) := by
  have hpos : 1 ≤ lexer.rest.length := by simp [hrest]
  unfold charBehindZero
  split
  · rename_i hzero
    rw [addOne_eq, counting_bind (q := True)]
    · exact counting_congr (by simp [hzero]) _
    · rw [charAt_behind h hpos, hrest, counting_of trivial]
      rfl
  · rename_i hzero
    exact (counting_of (fun hc => absurd hc hzero) _).symm

/-- A number without a prefix. -/
theorem scanDecimal_eq (h : lexer.InText) (hrest : lexer.rest = c :: text) :
    (do
      let (digits, last) ← copyWhile lexerIsDigit 255 lexer
      .ok (Scanned.mk .number digits (strtoul digits 10) digits.length, last) :
        Except ScanFault (Scanned × Lexer)) =
      let digits := ((c :: text).takeWhile lexerIsDigit).take 255
      counting (lexer.Fits digits.length)
        (⟨.number, digits, strtoul digits 10, digits.length⟩, lexer.skip digits.length) := by
  rw [copyWhile_eq lexerIsDigit h rfl 255, hrest, counting_bind (q := True)]
  · exact counting_congr (and_iff_left trivial) _
  · exact (counting_of trivial _).symm

theorem scanNumber_ok_iff (h : lexer.InText) (hdigit : lexerIsDigit c = true)
    (hrest : lexer.rest = c :: text) :
    scanNumber c lexer = .ok (scanned, lexer.skip (Assembler.scanNumber c text).length) ↔
      scanned = Assembler.scanNumber c text ∧ lexer.Fits (Assembler.scanNumber c text).length ∧
        lexer.DigitsSeen := by
  have hlong := scanNumber_length_pos text hdigit
  have hmark : scanned = Assembler.scanNumber c text ∧
      lexer.Fits (Assembler.scanNumber c text).length ∧ lexer.DigitsSeen →
      c = ch '0' → lexer.position + 1 < 2 ^ 31 := by
    rintro ⟨-, hfits, -⟩ -
    have hplace := (hfits hlong).1
    omega
  unfold scanNumber
  rw [charBehindZero_eq h hrest, counting_bind_ok_iff, scanDecimal_eq h hrest]
  refine (and_congr_right fun _ => ?_).trans (and_iff_right_of_imp hmark)
  clear hmark hlong
  unfold Lexer.DigitsSeen Assembler.scanNumber
  by_cases hzero : c = ch '0'
  · cases text with
    | nil =>
      rw [if_pos hzero, List.headD_nil, if_neg (by decide), if_neg (by decide),
        if_neg (by simp [show 0#8 ≠ ch 'x' by decide]),
        if_neg (by simp [show 0#8 ≠ ch 'b' by decide]), counting_pair_ok_iff, hrest]
      exact and_congr_right fun _ => (and_iff_left nofun).symm
    | cons mark text =>
      rw [if_pos hzero, List.headD_cons, List.tail_cons, hrest, prefixDigits]
      simp only [hzero, true_and, decide_true, Bool.true_and, decide_eq_true_eq]
      by_cases hx : mark = ch 'x'
      · subst hx
        simp only [if_true]
        exact scanPrefixed_ok_iff h rfl 16 (hzero ▸ hrest)
      · simp only [hx, if_false]
        by_cases hb : mark = ch 'b'
        · subst hb
          simp only [if_true]
          exact scanPrefixed_ok_iff h rfl 2 (hzero ▸ hrest)
        · simp only [hb, if_false]
          rw [← hzero, counting_pair_ok_iff]
          exact and_congr_right fun _ => (and_iff_left nofun).symm
  · have hseen := digitsSeen_of_ne hzero hrest
    rw [if_neg hzero, if_neg (by decide), if_neg (by decide), if_neg (by simp [hzero]),
      if_neg (by simp [hzero]), counting_pair_ok_iff]
    exact and_congr_right fun _ => (and_iff_left hseen).symm

theorem scanString_eq (h : lexer.InText) (hrest : lexer.rest = c :: text) :
    scanString lexer = counting (lexer.Fits (Assembler.scanString text).length)
      (Assembler.scanString text, lexer.skip (Assembler.scanString text).length) := by
  have hpos : 1 ≤ lexer.rest.length := by simp [hrest]
  have hlength : lexer.rest.length = text.length + 1 := by simp [hrest]
  have hcopy := copyWhile_eq (fun d => d != 0#8 && d != quote) (h.skip hpos) rfl 255
  rw [rest_skip, hrest, List.drop_one, List.tail_cons, skip_skip] at hcopy
  unfold scanString Assembler.scanString
  dsimp only
  have hprefix := (List.take_prefix 255 (text.takeWhile fun d => d != 0#8 && d != quote)).trans
    (List.takeWhile_prefix _)
  generalize (text.takeWhile fun d => d != 0#8 && d != quote).take 255 = copied at *
  have hle := hprefix.length_le
  have hlast := h.skip (n := 1 + copied.length) (by omega)
  have hdrop : (lexer.skip (1 + copied.length)).rest = text.drop copied.length := by
    rw [rest_skip, hrest, Nat.add_comm, List.drop_succ_cons]
  have hread := charAt_position hlast
  rw [hdrop] at hread
  rw [step_eq]
  by_cases hquote : (text.drop copied.length).headD 0#8 = quote
  · rw [if_pos hquote]
    dsimp only
    have hadd := lexer.fits_add 1 (copied.length + 1)
    rw [Nat.add_comm 1] at hadd
    rw [counting_congr hadd]
    apply counting_bind
    rw [hcopy, counting_congr ((lexer.skip 1).fits_add ..), skip_skip]
    apply counting_bind
    dsimp only
    rw [hread, ok_bind, if_pos hquote, step_eq, counting_bind (q := True)]
    · exact counting_congr (and_iff_left trivial) _
    · rw [skip_skip, show 1 + copied.length + 1 = copied.length + 2 by omega]
      exact (counting_of trivial _).symm
  · rw [if_neg hquote]
    dsimp only
    have hadd := lexer.fits_add 1 copied.length
    rw [Nat.add_comm 1] at hadd
    rw [counting_congr hadd]
    apply counting_bind
    rw [hcopy, counting_bind (q := True)]
    · exact counting_congr (and_iff_left trivial) _
    · dsimp only
      rw [hread, ok_bind, if_neg hquote, Nat.add_comm 1]
      exact (counting_of trivial _).symm

theorem scanName_eq (h : lexer.InText) (hrest : lexer.rest = c :: text) :
    scanName lexer = counting (lexer.Fits (Assembler.scanName c text).length)
      (Assembler.scanName c text, lexer.skip (Assembler.scanName c text).length) := by
  unfold scanName
  rw [copyWhile_eq lexerIsAlnum h rfl 255, hrest, counting_bind (q := True)]
  · exact counting_congr (and_iff_left trivial) _
  · exact (counting_of trivial _).symm

theorem punctuation_newline (h : punctuation c = some .newline) : c = newline := by
  by_contra hne
  unfold punctuation at h
  rw [if_neg hne] at h
  split_ifs at h <;> cases h

/-- Where a token that is scanned leaves the lexer. -/
def behind (lexer : Lexer) (scanned : Scanned) : Lexer :=
  if scanned.type = .newline then
    { lexer with position := lexer.position + 1, line := lexer.line + 1, column := 1 }
  else lexer.skip scanned.length

theorem scanToken_ok_iff (h : lexer.InText) :
    scanToken lexer = .ok (scanned, behind lexer (Assembler.scanToken lexer.rest)) ↔
      scanned = Assembler.scanToken lexer.rest ∧ lexer.TokenFits ∧ lexer.DigitsSeen := by
  unfold scanToken Lexer.TokenFits behind
  rw [charAt_position h, ok_bind]
  cases hrest : lexer.rest with
  | nil =>
    have hseen : lexer.DigitsSeen := by
      rw [Lexer.DigitsSeen, hrest]
      exact nofun
    refine Iff.trans ?_ (and_iff_left ⟨nofun, hseen⟩).symm
    refine ⟨fun hok => ?_, fun hs => by rw [hs]; rfl⟩
    exact (congrArg Prod.fst (Except.ok.inj hok)).symm
  | cons c text =>
    have hpos : 1 ≤ lexer.rest.length := by simp [hrest]
    have hc : c ≠ 0#8 := rest_ne_zero h (by simp [hrest])
    have hsigns : ∀ {d : Byte}, c = d → d ≠ ch '0' → lexer.DigitsSeen :=
      fun hd hne => digitsSeen_of_ne (hd ▸ hne) hrest
    have hone : ∀ type, (step lexer >>= fun next => .ok (Scanned.mk type [c] 0 1, next)) =
        (counting (lexer.Fits 1) (Scanned.mk type [c] 0 1, lexer.skip 1) :
          Except ScanFault (Scanned × Lexer)) := by
      intro type
      rw [step_eq, counting_bind (q := True)]
      · exact counting_congr (and_iff_left trivial) _
      · exact (counting_of trivial _).symm
    rw [List.headD_cons, Assembler.scanToken, if_neg hc, if_neg hc]
    by_cases hnewline : c = newline
    · have hseen := hsigns hnewline (by decide)
      subst hnewline
      rw [if_pos rfl, addOne_eq, counting_bind_ok_iff, addOne_eq, counting_bind_ok_iff]
      constructor
      · rintro ⟨hplace, hline, hok⟩
        exact ⟨(congrArg Prod.fst (Except.ok.inj hok)).symm, ⟨hplace, hline⟩, hseen⟩
      · rintro ⟨rfl, ⟨hplace, hline⟩, -⟩
        exact ⟨hplace, hline, rfl⟩
    · rw [if_neg hnewline]
      cases hpunctuation : punctuation c with
      | some type =>
        have htype : type ≠ .newline := by
          rintro rfl
          exact hnewline (punctuation_newline hpunctuation)
        have hseen : lexer.DigitsSeen := by
          refine digitsSeen_of_ne ?_ hrest
          rintro rfl
          cases hpunctuation
        dsimp only
        rw [if_neg htype, if_neg htype, hone, counting_pair_ok_iff]
        exact and_congr_right fun _ => (and_iff_left hseen).symm
      | none =>
        dsimp only
        by_cases hcomment : c = ch ';'
        · have hskip := stepWhile_eq (fun d => d != 0#8 && d != newline) (h.skip hpos) rfl
          rw [rest_skip, hrest, List.drop_one, List.tail_cons, skip_skip] at hskip
          rw [if_pos hcomment, if_pos hcomment, step_eq, counting_bind_ok_iff, lexerSkipComment,
            hskip, counting_bind_ok_iff, lexer.fits_add]
          simp only [Lexer.skip, Nat.add_sub_cancel_left]
          have hseen := hsigns hcomment (by decide)
          constructor
          · rintro ⟨hfirst, hrun, hok⟩
            exact ⟨(congrArg Prod.fst (Except.ok.inj hok)).symm, ⟨hfirst, hrun⟩, hseen⟩
          · rintro ⟨rfl, ⟨hfirst, hrun⟩, -⟩
            exact ⟨hfirst, hrun, rfl⟩
        · rw [if_neg hcomment, if_neg hcomment]
          by_cases hquote : c = quote
          · have hseen := hsigns hquote (by decide)
            rw [if_pos hquote, if_pos hquote, scanString_eq h hrest]
            have htype : (Assembler.scanString text).type ≠ .newline := by
              rcases scanString_type text with ht | ht <;> simp [ht]
            rw [if_neg htype, if_neg htype, counting_pair_ok_iff]
            exact and_congr_right fun _ => (and_iff_left hseen).symm
          · rw [if_neg hquote, if_neg hquote]
            split
            · rename_i hdigit
              have htype : (Assembler.scanNumber c text).type ≠ .newline := by
                simp [scanNumber_type]
              rw [if_neg htype, if_neg htype]
              exact scanNumber_ok_iff h hdigit hrest
            · rename_i hdigit
              have hseen : lexer.DigitsSeen := by
                refine digitsSeen_of_ne ?_ hrest
                rintro rfl
                exact hdigit rfl
              split
              · have htype : (Assembler.scanName c text).type ≠ .newline := by
                  rcases scanName_type c text with ht | ht <;> simp [ht]
                rw [scanName_eq h hrest, if_neg htype, if_neg htype, counting_pair_ok_iff]
                exact and_congr_right fun _ => (and_iff_left hseen).symm
              · rw [hone]
                simp only [reduceCtorEq, if_false]
                rw [counting_pair_ok_iff]
                exact and_congr_right fun _ => (and_iff_left hseen).symm

end tokens

/-- A call that scans gives the token exactly if no count overflows and no digit is cut off. -/
theorem lexerNextToken_ok_iff (h : lexer.InText) (hfresh : lexer.hasToken = false) :
    lexerNextToken lexer = .ok (Assembler.lexerNextToken lexer) ↔
      lexer.Fits (blanks lexer.rest) ∧ (Assembler.lexerSkipWhitespace lexer).TokenFits ∧
        (Assembler.lexerSkipWhitespace lexer).DigitsSeen := by
  have hin : (Assembler.lexerSkipWhitespace lexer).InText := by
    rw [skipWhitespace_blanks]
    exact h.skip (blanks_le _)
  unfold lexerNextToken Assembler.lexerNextToken
  rw [hfresh, if_neg Bool.false_ne_true, if_neg Bool.false_ne_true, lexerSkipWhitespace_eq h,
    counting_bind_ok_iff]
  refine and_congr_right fun _ => ?_
  dsimp only
  generalize Assembler.lexerSkipWhitespace lexer = start at *
  have hpair : ∀ token : Token, (if (Assembler.scanToken start.rest).type = .newline then
      (token, { start with
        position := start.position + 1, line := start.line + 1, column := 1 })
      else (token, start.skip (Assembler.scanToken start.rest).length)) =
        (token, behind start (Assembler.scanToken start.rest)) := by
    intro token
    unfold behind
    split <;> rfl
  rw [hpair]
  constructor
  · intro hok
    obtain ⟨⟨scanned, last⟩, hscan, htoken⟩ := bind_eq_ok hok
    obtain rfl : last = behind start (Assembler.scanToken start.rest) :=
      congrArg Prod.snd (Except.ok.inj htoken)
    exact ((scanToken_ok_iff hin).mp hscan).2
  · intro hfits
    rw [(scanToken_ok_iff hin).mpr ⟨rfl, hfits⟩]
    rfl

section line

end line

end Checked

end Dez.Assembler
