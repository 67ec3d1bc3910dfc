import Dez.Assembler.Immediates

/-! The number formats of the language: all spellings of a number are lexed as that number. -/
namespace Dez.Assembler

inductive NumberFormat
  | decimal | hexadecimal | binary

namespace NumberFormat

def base : NumberFormat → ℕ
  | decimal => 10
  | hexadecimal => 16
  | binary => 2

/-- What stands in front of the digits. -/
def mark : NumberFormat → List Byte
  | decimal => []
  | hexadecimal => bytes "0x"
  | binary => bytes "0b"

/-- A digit, from ten on as a letter of the alphabet that starts at `a`. -/
def digitByte (a : Byte) (d : ℕ) : Byte :=
  if d < 10 then ch '0' + BitVec.ofNat 8 d else a + BitVec.ofNat 8 (d - 10)

/-- The characters for a digit, a letter in upper or lower case. -/
def digitSpellings (d : ℕ) : List Byte := [digitByte (ch 'A') d, digitByte (ch 'a') d]

/-- Digits that spell a number, behind any number of leading zeros. -/
def Spells (format : NumberFormat) (n : ℕ) (digits : List Byte) : Prop :=
  digits ≠ [] ∧ ∃ zeros significant, digits = List.replicate zeros (ch '0') ++ significant ∧
    List.Forall₂ (fun c d => c ∈ digitSpellings d) significant (Nat.digits format.base n).reverse

/-- The test of the format's scanning loop. -/
def accepts : NumberFormat → Byte → Bool
  | decimal => lexerIsDigit
  | hexadecimal => isHexDigit
  | binary => isBinDigit

variable {format : NumberFormat} {n : ℕ} {digits significant after : List Byte} {c : Byte}

theorem toNat_digitByte {a : Byte} {d : ℕ} (ha : a.toNat ≤ 128) (hd : d < 16) :
    (digitByte a d).toNat = if d < 10 then 48 + d else a.toNat + (d - 10) := by
  have hzero : (ch '0').toNat = 48 := rfl
  unfold digitByte
  split
  · rw [BitVec.toNat_add, BitVec.toNat_ofNat, hzero]
    omega
  · rw [BitVec.toNat_add, BitVec.toNat_ofNat]
    omega

/-- Where the character of a digit is. -/
theorem toNat_digitSpelling {d : ℕ} (hd : d < 16) (hc : c ∈ digitSpellings d) :
    c.toNat = 48 + d ∧ d < 10 ∨ (c.toNat = 55 + d ∨ c.toNat = 87 + d) ∧ 10 ≤ d := by
  have hupper : (ch 'A').toNat = 65 := rfl
  have hlower : (ch 'a').toNat = 97 := rfl
  rcases List.mem_pair.mp hc with rfl | rfl
  · rw [toNat_digitByte (by omega) hd]
    split <;> omega
  · rw [toNat_digitByte (by omega) hd]
    split <;> omega

theorem digit_value {d : ℕ} (hd : d < 16) (hc : c ∈ digitSpellings d) : digitValue c = d := by
  rcases toNat_digitSpelling hd hc with ⟨h, hlt⟩ | ⟨h | h, hle⟩
  all_goals
    unfold digitValue
    split_ifs <;> omega

theorem digit_accepted {d : ℕ} (hd : d < format.base) (hc : c ∈ digitSpellings d) :
    format.accepts c = true := by
  cases format with
  | decimal =>
    have hbase : base decimal = 10 := rfl
    rcases toNat_digitSpelling (by omega) hc with ⟨h, -⟩ | ⟨-, hle⟩
    · simp only [accepts, lexerIsDigit, Bool.and_eq_true, decide_eq_true_eq]
      omega
    · omega
  | hexadecimal =>
    simp only [accepts, isHexDigit, lexerIsDigit, Bool.or_eq_true, Bool.and_eq_true,
      decide_eq_true_eq]
    rcases toNat_digitSpelling hd hc with ⟨h, hlt⟩ | ⟨h | h, hle⟩
    · exact .inl (.inl ⟨by omega, by omega⟩)
    · have hbase : d < 16 := hd
      exact .inl (.inr ⟨by omega, by omega⟩)
    · have hbase : d < 16 := hd
      exact .inr ⟨by omega, by omega⟩
  | binary =>
    have hbase : base binary = 2 := rfl
    rcases toNat_digitSpelling (by omega) hc with ⟨h, -⟩ | ⟨-, hle⟩
    · rw [accepts, isBinDigit, Bool.or_eq_true, decide_eq_true_eq, decide_eq_true_eq]
      obtain rfl | rfl : d = 0 ∨ d = 1 := by omega
      · exact .inl (BitVec.eq_of_toNat_eq h)
      · exact .inr (BitVec.eq_of_toNat_eq h)
    · omega

theorem alnum_of_accepts (h : format.accepts c = true) : lexerIsAlnum c = true := by
  cases format with
  | decimal => exact alnum_of_digit h
  | hexadecimal => exact alnum_of_hexDigit h
  | binary => exact alnum_of_binDigit h

theorem base_bounds (format : NumberFormat) : 1 < format.base ∧ format.base ≤ 16 := by
  cases format <;> decide

theorem digitsFrom_zeros (base zeros : ℕ) (rest : List Byte) :
    digitsFrom base 0 (List.replicate zeros (ch '0') ++ rest) = digitsFrom base 0 rest := by
  induction zeros with
  | zero => rfl
  | succ zeros ih =>
    have hzero : 0 * base + digitValue (ch '0') = 0 := by
      rw [Nat.zero_mul]
      rfl
    rw [List.replicate_succ, List.cons_append, digitsFrom, List.foldl_cons, hzero]
    exact ih

theorem digitsFrom_spelt {base : ℕ} {ds : List ℕ}
    (h : List.Forall₂ (fun c d => c ∈ digitSpellings d) significant ds) (hlt : ∀ d ∈ ds, d < 16)
    (m : ℕ) : digitsFrom base m significant = ds.foldl (fun m d => m * base + d) m := by
  induction h generalizing m with
  | nil => rfl
  | cons hc _ ih =>
    obtain ⟨hd, hrest⟩ := List.forall_mem_cons.mp hlt
    rw [digitsFrom, List.foldl_cons, digit_value hd hc]
    exact ih hrest _

/-- Positional notation: the digits of a number make the number. -/
theorem foldl_digits (base n : ℕ) :
    (Nat.digits base n).reverse.foldl (fun m d => m * base + d) 0 = n := by
  calc (Nat.digits base n).reverse.foldl (fun m d => m * base + d) 0
      = (Nat.digits base n).foldr (fun d m => d + base * m) 0 := by
        rw [List.foldl_reverse]
        congr 1
        funext d m
        rw [Nat.mul_comm, Nat.add_comm]
    _ = Nat.ofDigits base (Nat.digits base n) := (Nat.ofDigits_eq_foldr base _).symm
    _ = n := Nat.ofDigits_digits base n

theorem Spells.value (h : format.Spells n digits) : digitsFrom format.base 0 digits = n := by
  obtain ⟨hbase, hle⟩ := format.base_bounds
  obtain ⟨-, zeros, significant, rfl, hdigits⟩ := h
  have hlt : ∀ d ∈ (Nat.digits format.base n).reverse, d < 16 := fun d hd =>
    (Nat.digits_lt_base hbase (List.mem_reverse.mp hd)).trans_le hle
  rw [digitsFrom_zeros, digitsFrom_spelt hdigits hlt, foldl_digits]

theorem accepts_spelt {ds : List ℕ}
    (h : List.Forall₂ (fun c d => c ∈ digitSpellings d) significant ds)
    (hlt : ∀ d ∈ ds, d < format.base) : ∀ c ∈ significant, format.accepts c = true := by
  induction h with
  | nil => exact nofun
  | cons hc _ ih =>
    obtain ⟨hd, hrest⟩ := List.forall_mem_cons.mp hlt
    exact List.forall_mem_cons.mpr ⟨digit_accepted hd hc, ih hrest⟩

theorem Spells.accepted (h : format.Spells n digits) : ∀ c ∈ digits, format.accepts c = true := by
  obtain ⟨hbase, -⟩ := format.base_bounds
  obtain ⟨-, zeros, significant, rfl, hdigits⟩ := h
  intro c hc
  rcases List.mem_append.mp hc with hzero | hsignificant
  · rw [List.eq_of_mem_replicate hzero]
    exact digit_accepted (d := 0) (by omega) (List.mem_cons_self ..)
  · exact accepts_spelt hdigits
      (fun d hd => Nat.digits_lt_base hbase (List.mem_reverse.mp hd)) c hsignificant

/-- The conversion of at most 32 bits neither saturates nor wraps. -/
theorem Spells.strtoul (h : format.Spells n digits) (hn : n < 2 ^ 32) :
    strtoul digits format.base = BitVec.ofNat 32 n := by
  have hvalue := h.value
  unfold digitsFrom at hvalue
  rw [Assembler.strtoul, hvalue, Nat.min_eq_left (by omega)]

theorem scanToken_prefixed {mark : Byte} {rest : List Byte}
    (hmark : mark = ch 'x' ∨ mark = ch 'b') :
    skipBlanks (ch '0' :: mark :: rest) = ch '0' :: mark :: rest ∧
      scanToken (ch '0' :: mark :: rest) =
        if mark = ch 'x' then scanPrefixed (ch '0') (ch 'x') isHexDigit 16 rest
        else scanPrefixed (ch '0') (ch 'b') isBinDigit 2 rest := by
  obtain ⟨hscan, hskip⟩ := @scanToken_of_alnum (mark :: rest) (ch '0') rfl
  refine ⟨hskip, hscan.trans ?_⟩
  rcases hmark with rfl | rfl
  · rfl
  · rfl

/-- A number with its mark is one token, up to the first character that cannot go on. -/
theorem Spells.scanned (h : format.Spells n digits) (hlength : digits.length ≤ 200)
    (hbehind : lexerIsAlnum (after.headD 0#8) = false) :
    skipBlanks (format.mark ++ digits ++ after) = format.mark ++ digits ++ after ∧
      scanToken (format.mark ++ digits ++ after) =
        ⟨.number, format.mark ++ digits, Assembler.strtoul digits format.base,
          (format.mark ++ digits).length⟩ := by
  have hends : format.accepts (after.headD 0#8) = false := by
    by_contra haccepts
    rw [alnum_of_accepts ((Bool.not_eq_false _).mp haccepts)] at hbehind
    cases hbehind
  have hrun : ((digits ++ after).takeWhile format.accepts).take 253 = digits := by
    rw [takeWhile_run h.accepted hends, List.take_of_length_le (by omega)]
  have hprefixed : ∀ mark, (scanPrefixed (ch '0') mark format.accepts format.base
      (digits ++ after)) = ⟨.number, ch '0' :: mark :: digits,
        Assembler.strtoul digits format.base, digits.length + 1 + 1⟩ := by
    intro mark
    rw [scanPrefixed, hrun, Nat.add_comm 2]
  cases format with
  | decimal =>
    have hshort : digits.length ≤ 255 := by omega
    exact scanToken_digits h.accepted h.1 hshort hbehind
  | hexadecimal =>
    obtain ⟨hskip, hscan⟩ := @scanToken_prefixed (ch 'x') (digits ++ after) (.inl rfl)
    exact ⟨hskip, hscan.trans (hprefixed (ch 'x'))⟩
  | binary =>
    obtain ⟨hskip, hscan⟩ := @scanToken_prefixed (ch 'b') (digits ++ after) (.inr rfl)
    exact ⟨hskip, hscan.trans (hprefixed (ch 'b'))⟩

end NumberFormat

end Dez.Assembler
