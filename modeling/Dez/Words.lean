import Mathlib.Tactic

/-! Bytes and bit fields of 32-bit words. -/
namespace Dez

abbrev Word := BitVec 32

abbrev Byte := BitVec 8

/-- The word whose bytes, lowest first, are the given ones. -/
def wordOfBytes (b0 b1 b2 b3 : Byte) : Word :=
  b0.setWidth 32 ||| b1.setWidth 32 <<< 8 ||| b2.setWidth 32 <<< 16 ||| b3.setWidth 32 <<< 24

/-- Byte `k` of a word, counted from the lowest. -/
def byteOf (w : Word) (k : ℕ) : Byte := (w >>> (8 * k)).setWidth 8

/-- Byte `k` of a word replaced. -/
def putByte (w : Word) (k : ℕ) (b : Byte) : Word :=
  (w &&& ~~~((0xFF : Word) <<< (8 * k))) ||| b.setWidth 32 <<< (8 * k)

theorem getLsbD_byteOf (w : Word) (k i : ℕ) (hi : i < 8) :
    (byteOf w k).getLsbD i = w.getLsbD (8 * k + i) := by
  simp [byteOf, hi]

theorem getLsbD_ff (i : ℕ) : (0xFF : Word).getLsbD i = decide (i < 8) := by
  by_cases h : i < 32
  · interval_cases i <;> rfl
  · have : ¬ i < 8 := by omega
    rw [BitVec.getLsbD_of_ge _ _ (by omega)]
    simp [this]

theorem getLsbD_putByte (w : Word) (k i : ℕ) (b : Byte) (hi : i < 32) :
    (putByte w k b).getLsbD i =
      if 8 * k ≤ i ∧ i < 8 * k + 8 then b.getLsbD (i - 8 * k) else w.getLsbD i := by
  simp only [putByte, BitVec.getLsbD_or, BitVec.getLsbD_and, BitVec.getLsbD_not,
    BitVec.getLsbD_shiftLeft, getLsbD_ff, BitVec.getLsbD_setWidth, hi]
  by_cases h1 : 8 * k ≤ i
  · by_cases h2 : i < 8 * k + 8
    · have h3 : i - 8 * k < 8 := by omega
      have h4 : i - 8 * k < 32 := by omega
      simp [h1, h2, h3, h4, show ¬ i < 8 * k by omega]
    · have hb : b.getLsbD (i - 8 * k) = false := BitVec.getLsbD_of_ge _ _ (by omega)
      simp [h1, h2, hb, show ¬ i - 8 * k < 8 by omega]
  · have h3 : i < 8 * k := by omega
    simp [h1, h3]

theorem byteOf_putByte (w : Word) (k j : ℕ) (b : Byte) (hj : j < 4) :
    byteOf (putByte w k b) j = if j = k then b else byteOf w j := by
  apply BitVec.eq_of_getLsbD_eq
  intro i hi
  rw [getLsbD_byteOf _ _ _ hi, getLsbD_putByte _ _ _ _ (by omega)]
  split <;> rename_i h
  · have hjk : j = k := by omega
    subst j
    simp
  · have hjk : j ≠ k := by omega
    rw [if_neg hjk, getLsbD_byteOf _ _ _ hi]

/-- A word is its four bytes. -/
theorem word_ext {v w : Word} (h : ∀ k < 4, byteOf v k = byteOf w k) : v = w := by
  apply BitVec.eq_of_getLsbD_eq
  intro i hi
  have hk := congrArg (fun b => b.getLsbD (i % 8)) (h (i / 8) (by omega))
  simp only [getLsbD_byteOf _ _ _ (Nat.mod_lt i (by omega : 0 < 8)), Nat.div_add_mod] at hk
  exact hk

theorem getLsbD_wordOfBytes (b0 b1 b2 b3 : Byte) (i : ℕ) (hi : i < 32) :
    (wordOfBytes b0 b1 b2 b3).getLsbD i =
      (if i < 8 then b0 else if i < 16 then b1 else if i < 24 then b2 else b3).getLsbD (i % 8) := by
  simp only [wordOfBytes, BitVec.getLsbD_or, BitVec.getLsbD_shiftLeft, BitVec.getLsbD_setWidth]
  interval_cases i <;> simp [-BitVec.getLsbD_eq_getElem]

theorem byteOf_wordOfBytes (b0 b1 b2 b3 : Byte) {k : ℕ} (hk : k < 4) :
    byteOf (wordOfBytes b0 b1 b2 b3) k = [b0, b1, b2, b3].get ⟨k, hk⟩ := by
  apply BitVec.eq_of_getLsbD_eq
  intro i hi
  rw [getLsbD_byteOf _ _ _ hi, getLsbD_wordOfBytes _ _ _ _ _ (by omega)]
  have hm : (8 * k + i) % 8 = i := by omega
  rw [hm]
  interval_cases k <;> simp <;> split_ifs <;> first | rfl | omega

theorem wordOfBytes_byteOf (w : Word) :
    wordOfBytes (byteOf w 0) (byteOf w 1) (byteOf w 2) (byteOf w 3) = w := by
  apply word_ext
  intro k hk
  rw [byteOf_wordOfBytes _ _ _ _ hk]
  interval_cases k <;> rfl

end Dez
