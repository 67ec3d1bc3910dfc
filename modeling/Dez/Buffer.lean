import Dez.Arrays
import Dez.Words

/-! Arrays of words seen as bytes, lowest byte first, and copies of bytes into them. -/
namespace Dez.CArray
variable {n : ℕ} {a a' : CArray Word n} {b p : ℕ} {cs : List Byte}

/-- `((char *)a)[p]`, zero outside the array. -/
def byte (a : CArray Word n) (p : ℕ) : Byte :=
  if h : p / 4 < n then byteOf (a ⟨p / 4, h⟩) (p % 4) else 0

/-- `((char *)a)[p] = c` -/
def writeByte (a : CArray Word n) (p : ℕ) (c : Byte) : Except Fault (CArray Word n) := do
  let w ← a.read (p / 4)
  a.write (p / 4) (putByte w (p % 4) c)

/-- `memcpy((char *)a + b, cs, sizeof(cs))` -/
def memcpy (a : CArray Word n) (b : ℕ) : List Byte → Except Fault (CArray Word n)
  | [] => return a
  | c :: cs => do
    let a ← a.writeByte b c
    a.memcpy (b + 1) cs

/-- The byte a copy puts at a position. -/
def copied (b : ℕ) (cs : List Byte) (p : ℕ) : Option Byte :=
  if b ≤ p then cs[p - b]? else none

/-- The byte the last copy to reach a position puts there. -/
def lastCopied : List (ℕ × List Byte) → ℕ → Option Byte
  | [], _ => none
  | (b, cs) :: copies, p => (lastCopied copies p).or (copied b cs p)

theorem writeByte_of_lt (a : CArray Word n) (hp : p < 4 * n) (c : Byte) :
    ∃ a', a.writeByte p c = .ok a' ∧ ∀ q, a'.byte q = if q = p then c else a.byte q := by
  have hlt : p / 4 < n := by omega
  refine ⟨a.set ⟨p / 4, hlt⟩ (putByte (a ⟨p / 4, hlt⟩) (p % 4) c), ?_, ?_⟩
  · simp only [writeByte, read_of_lt a hlt, ok_bind]
    exact write_of_lt a hlt _
  · intro q
    by_cases hq : q / 4 < n
    · simp only [byte, dif_pos hq, set_apply, Fin.mk.injEq]
      by_cases hw : q / 4 = p / 4
      · rw [if_pos hw, byteOf_putByte _ _ _ _ (by omega)]
        simp only [hw]
        exact if_congr (by omega) rfl rfl
      · rw [if_neg hw, if_neg (fun h => hw (by rw [h]))]
    · have hne : q ≠ p := by omega
      simp [byte, hq, hne]

theorem writeByte_of_ge (a : CArray Word n) (hp : 4 * n ≤ p) (c : Byte) :
    ∃ fault, a.writeByte p c = .error fault := by
  have hge : ¬ p / 4 < n := by omega
  refine ⟨.outOfBounds n (p / 4), ?_⟩
  simp only [writeByte, read, dif_neg hge]
  rfl

/-- A copy that returns stayed in the array, and changed the bytes it was given. -/
theorem memcpy_ok (h : a.memcpy b cs = .ok a') :
    (cs ≠ [] → b + cs.length ≤ 4 * n) ∧ ∀ p, a'.byte p = (copied b cs p).getD (a.byte p) := by
  induction cs generalizing a b with
  | nil =>
    cases h
    simp [copied]
  | cons c cs ih =>
    unfold memcpy at h
    by_cases hb : b < 4 * n
    · obtain ⟨next, hwrite, hbyte⟩ := writeByte_of_lt a hb c
      rw [hwrite, ok_bind] at h
      obtain ⟨hend, hrest⟩ := ih h
      constructor
      · intro _
        cases cs with
        | nil => simpa using hb
        | cons d ds =>
          have hle := hend (List.cons_ne_nil _ _)
          simp only [List.length_cons] at hle ⊢
          omega
      · intro p
        rw [hrest, hbyte]
        by_cases hlt : b + 1 ≤ p
        · have hne : p ≠ b := by omega
          simp [copied, hlt, show b ≤ p by omega, hne, show p - b = p - (b + 1) + 1 by omega]
        · by_cases hp : p = b
          · subst hp
            simp [copied]
          · simp [copied, hlt, hp, show ¬ b ≤ p by omega]
    · obtain ⟨fault, hwrite⟩ := writeByte_of_ge a (Nat.not_lt.mp hb) c
      rw [hwrite] at h
      cases h

/-- A copy that stays in the array returns. -/
theorem memcpy_of_le (h : b + cs.length ≤ 4 * n) : ∃ a', a.memcpy b cs = .ok a' := by
  induction cs generalizing a b with
  | nil => exact ⟨a, rfl⟩
  | cons c cs ih =>
    rw [List.length_cons] at h
    obtain ⟨next, hwrite, -⟩ := writeByte_of_lt a (show b < 4 * n by omega) c
    rw [memcpy, hwrite, ok_bind]
    exact ih (by omega)

/-- A cell is a word if its bytes are the word's. -/
theorem eq_iff_byte (i : Fin n) (w : Word) :
    a i = w ↔ ∀ k < 4, a.byte (4 * i + k) = byteOf w k := by
  have hbyte : ∀ k < 4, a.byte (4 * i + k) = byteOf (a i) k := by
    intro k hk
    have hdiv : (4 * i.val + k) / 4 = i := by omega
    simp only [byte, hdiv, i.isLt, dif_pos, show (4 * i.val + k) % 4 = k by omega]
  constructor
  · rintro rfl
    exact hbyte
  · intro h
    apply word_ext
    intro k hk
    exact (hbyte k hk).symm.trans (h k hk)

end Dez.CArray
