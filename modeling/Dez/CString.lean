import Mathlib.Data.List.TakeWhile
import Dez.Words

/-! NUL-terminated strings in arrays of a fixed size. -/
namespace Dez

/-- The byte of an ASCII character. -/
def ch (c : Char) : Byte := BitVec.ofNat 8 c.toNat

/-- The bytes of an ASCII string literal. -/
def bytes (s : String) : List Byte := s.toList.map ch

/-- The text held by a `char` array of `n + 1` cells, without its terminator. -/
structure CString (n : ℕ) where
  chars : List Byte
  terminated : 0#8 ∉ chars
  fits : chars.length ≤ n
  deriving DecidableEq

namespace CString

variable {m n : ℕ}

theorem ext_chars {s t : CString n} (h : s.chars = t.chars) : s = t := by
  cases s
  cases t
  simp_all

theorem zero_notMem_takeWhile (l : List Byte) : 0#8 ∉ l.takeWhile (· != 0#8) := by
  intro h
  simpa using List.mem_takeWhile_imp h

/-- `strncpy` of at most `n` bytes with the terminator set behind them. -/
def ofBytes (n : ℕ) (l : List Byte) : CString n where
  chars := (l.takeWhile (· != 0#8)).take n
  terminated h := zero_notMem_takeWhile l (List.mem_of_mem_take h)
  fits := by simp

theorem chars_ofBytes {l : List Byte} (h : 0#8 ∉ l) : (ofBytes n l).chars = l.take n := by
  have hl : l.takeWhile (· != 0#8) = l := by
    rw [List.takeWhile_eq_self_iff]
    intro c hc
    simp only [bne_iff_ne, ne_eq]
    rintro rfl
    exact h hc
  simp [ofBytes, hl]

/-- A copy into a smaller or larger array. -/
def copy (s : CString m) (n : ℕ) : CString n := ofBytes n s.chars

@[simp] theorem chars_copy (s : CString m) (n : ℕ) : (s.copy n).chars = s.chars.take n :=
  chars_ofBytes s.terminated

theorem copy_of_le (s : CString m) (h : s.chars.length ≤ n) : (s.copy n).chars = s.chars := by
  rw [chars_copy, List.take_of_length_le h]

@[simp] theorem copy_self (s : CString n) : s.copy n = s :=
  ext_chars (s.copy_of_le s.fits)

end CString

/-- `strrchr`: how many bytes stand before the last `c`. -/
def strrchr (c : Byte) : List Byte → Option ℕ
  | [] => none
  | d :: text =>
    match strrchr c text with
    | some k => some (k + 1)
    | none => if d = c then some 0 else none

section strrchr

variable {c : Byte} {text : List Byte} {k : ℕ}

theorem strrchr_none : strrchr c text = none ↔ c ∉ text := by
  induction text with
  | nil => exact iff_of_true rfl List.not_mem_nil
  | cons d text ih =>
    rw [strrchr, List.mem_cons]
    cases h : strrchr c text with
    | some k =>
      have hmem : c ∈ text := by
        by_contra hno
        rw [ih.mpr hno] at h
        cases h
      exact iff_of_false nofun fun hno => hno (.inr hmem)
    | none =>
      have hno := ih.mp h
      by_cases hd : d = c
      · rw [if_pos hd]
        exact iff_of_false nofun fun h => h (.inl hd.symm)
      · rw [if_neg hd]
        exact iff_of_true rfl fun h => h.elim (fun h => hd h.symm) hno

/-- The text splits at the last place of the byte. -/
theorem strrchr_some (h : strrchr c text = some k) :
    k < text.length ∧ text.drop k = c :: text.drop (k + 1) ∧ c ∉ text.drop (k + 1) := by
  induction text generalizing k with
  | nil => cases h
  | cons d text ih =>
    rw [strrchr] at h
    cases hk : strrchr c text with
    | some j =>
      rw [hk] at h
      cases h
      obtain ⟨hlt, hdrop, hno⟩ := ih hk
      exact ⟨Nat.succ_lt_succ hlt, hdrop, hno⟩
    | none =>
      rw [hk] at h
      split_ifs at h with hd
      cases h
      exact ⟨Nat.zero_lt_succ _, by rw [hd]; rfl, strrchr_none.mp hk⟩

theorem strrchr_append (front : List Byte) (h : c ∉ text) :
    strrchr c (front ++ c :: text) = some front.length := by
  induction front with
  | nil =>
    rw [List.nil_append, strrchr, strrchr_none.mpr h]
    exact if_pos rfl
  | cons d front ih => rw [List.cons_append, strrchr, ih, List.length_cons]

end strrchr

end Dez
