import Dez.Words

/-! The binary file both tools agree on: a count, the words it counts, further bytes. -/
namespace Dez
variable {v w : Word} {ws ws' : List Word} {rest rest' : List Byte}

/-- The four bytes of a word as a file holds them, lowest first. -/
def wordBytes (w : Word) : List Byte := [byteOf w 0, byteOf w 1, byteOf w 2, byteOf w 3]

/-- A file whose header counts its words, followed by further bytes. -/
def programFile (ws : List Word) (strings : List Byte) : List Byte :=
  wordBytes (BitVec.ofNat 32 ws.length) ++ ws.flatMap wordBytes ++ strings

theorem length_flatMap_wordBytes (ws : List Word) :
    (ws.flatMap wordBytes).length = 4 * ws.length := by
  induction ws with
  | nil => rfl
  | cons w ws ih =>
    simp only [List.flatMap_cons, List.length_append, ih, List.length_cons, wordBytes,
      List.length_nil]
    omega

theorem wordBytes_inj (h : wordBytes v = wordBytes w) : v = w := by
  simp only [wordBytes, List.cons.injEq, and_true] at h
  obtain ⟨h0, h1, h2, h3⟩ := h
  apply word_ext
  intro k hk
  interval_cases k <;> assumption

theorem wordBytes_append_inj (h : wordBytes v ++ rest = wordBytes w ++ rest') :
    v = w ∧ rest = rest' := by
  obtain ⟨hw, hrest⟩ := List.append_inj h rfl
  exact ⟨wordBytes_inj hw, hrest⟩

theorem flatMap_wordBytes_inj (hlen : ws.length = ws'.length)
    (h : ws.flatMap wordBytes ++ rest = ws'.flatMap wordBytes ++ rest') :
    ws = ws' ∧ rest = rest' := by
  induction ws generalizing ws' with
  | nil =>
    obtain rfl : ws' = [] := List.eq_nil_of_length_eq_zero hlen.symm
    exact ⟨rfl, h⟩
  | cons w ws ih =>
    cases ws' with
    | nil => cases hlen
    | cons w' ws' =>
      simp only [List.flatMap_cons, List.append_assoc] at h
      obtain ⟨rfl, hrest⟩ := wordBytes_append_inj h
      obtain ⟨rfl, hend⟩ := ih (Nat.succ.inj hlen) hrest
      exact ⟨rfl, hend⟩

/-- A file determines what it was made of. -/
theorem programFile_inj (hw : ws.length < 2 ^ 32) (hw' : ws'.length < 2 ^ 32)
    (h : programFile ws rest = programFile ws' rest') : ws = ws' ∧ rest = rest' := by
  simp only [programFile, List.append_assoc] at h
  obtain ⟨hcount, hbody⟩ := wordBytes_append_inj h
  have hlen := congrArg BitVec.toNat hcount
  simp only [BitVec.toNat_ofNat, Nat.mod_eq_of_lt hw, Nat.mod_eq_of_lt hw'] at hlen
  exact flatMap_wordBytes_inj hlen hbody

end Dez
