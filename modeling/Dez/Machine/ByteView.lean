import Dez.Machine.Image
import Dez.Machine.Protection

/-! The byte accessors and the word accessors are two views of one memory. -/
namespace Dez.Machine

/-- The address of byte `k` of a word, counted from its highest. -/
def byteAddress (w : Word) (k : ℕ) : Word := 4#32 * w + BitVec.ofNat 32 k

/-- Calls of `memory_write_byte` one after the other, each of which returns `0`. -/
inductive WritesBytes : DezMemory → List (Word × Byte) → DezMemory → Prop
  | nil (mem : DezMemory) : WritesBytes mem [] mem
  | cons {mem mid mem' : DezMemory} {a : Word} {v : Byte} {writes : List (Word × Byte)}
      {out : List Output} (h : memoryWriteByte mem a v = .ok (0, mid, out))
      (ht : WritesBytes mid writes mem') : WritesBytes mem ((a, v) :: writes) mem'

/-- The two views agree on a memory and on what the write accessors make of it. -/
structure ViewsAgree (mem : DezMemory) : Prop where
  /-- Where the word is writable, the byte write is not refused. -/
  writeByte : ∀ (a : Word) (v : Byte), a.toNat < 16384 → memoryCanWrite mem (a >>> 2) = true →
    ∃ mem', memoryWriteByte mem a v = .ok (0, mem', [])
  readByte : ∀ (a b : Word) (v : Byte) (mem' : DezMemory) (out : List Output),
    a.toNat < 16384 → b.toNat < 16384 → memoryWriteByte mem a v = .ok (0, mem', out) →
    ∃ old, memoryReadByte mem b = .ok (old, []) ∧
      memoryReadByte mem' b = .ok (if b = a then v else old, [])
  /-- For every word that has byte addresses: past the memory both views read as zero. -/
  readWord : ∀ w : Word, w.toNat < 2 ^ 30 → ∃ b : ℕ → Byte,
    (∀ k < 4, (memoryReadByte mem (byteAddress w k)).map Prod.fst = .ok (b k)) ∧
    (memoryReadWord mem w).map Prod.fst = .ok (wordOfBytes (b 3) (b 2) (b 1) (b 0))
  wordThenBytes : ∀ w v : Word, w.toNat < 4096 → memoryCanWrite mem w = true →
    ∃ mem', memoryWriteWord mem w v = .ok (0, mem', []) ∧
      ∀ k < 4, memoryReadByte mem' (byteAddress w k) = .ok (byteOf v (3 - k), [])
  bytesThenWord : ∀ (w v : Word) (offsets : List ℕ), w.toNat < 4096 →
    memoryCanWrite mem w = true → offsets.Perm [0, 1, 2, 3] →
    ∃ mem', WritesBytes mem
        (offsets.map fun k => (byteAddress w k, byteOf v (3 - k))) mem' ∧
      memoryReadWord mem' w = .ok (v, mem', [])

variable {mem mem' : DezMemory} {a b v w : Word} {c : Byte} {k : ℕ} {out : List Output}

theorem byteAddress_toNat (hw : w.toNat < 2 ^ 30) (hk : k < 4) :
    (byteAddress w k).toNat = 4 * w.toNat + k := by
  unfold byteAddress
  simp only [BitVec.toNat_add, BitVec.toNat_mul, BitVec.toNat_ofNat]
  omega

theorem byteAddress_word (hw : w.toNat < 2 ^ 30) (hk : k < 4) : byteAddress w k >>> 2 = w := by
  apply BitVec.eq_of_toNat_eq
  rw [wordAddr_toNat, byteAddress_toNat hw hk]
  omega

theorem accepts_of_canWrite (ha : a.toNat < 4096) (h : memoryCanWrite mem a = true) :
    mem.Accepts a := by
  refine ⟨ha, ?_⟩
  unfold memoryCanWrite at h
  by_cases hcode : memoryIsCodeSegment mem a = true
  · rw [if_pos hcode] at h
    simpa [hcode] using h
  · simp [hcode]

theorem accepts_put (mem : DezMemory) (i : ℕ) (v a : Word) :
    (mem.put i v).Accepts a ↔ mem.Accepts a := by
  unfold DezMemory.put
  split <;> exact Iff.rfl

/-- A byte write that returns `0` is the one byte replaced. -/
theorem memoryWriteByte_ok (h : memoryWriteByte mem a c = .ok (0, mem', out)) :
    mem.Accepts (a >>> 2) ∧ mem' = mem.putByteAt a.toNat c := by
  have hcases := memoryWriteByte_cases mem a c
  split at hcases
  case isTrue hacc =>
    cases h.symm.trans hcases
    exact ⟨hacc, rfl⟩
  case isFalse hacc =>
    obtain ⟨out', hcases⟩ := hcases
    cases h.symm.trans hcases

theorem memoryWriteByte_of_accepts (h : mem.Accepts (a >>> 2)) (c : Byte) :
    memoryWriteByte mem a c = .ok (0, mem.putByteAt a.toNat c, []) := by
  have hcases := memoryWriteByte_cases mem a c
  rwa [if_pos h] at hcases

theorem readByte_after_writeByte (ha : a.toNat < 16384) (hb : b.toNat < 16384)
    (h : memoryWriteByte mem a c = .ok (0, mem', out)) :
    memoryReadByte mem' b = .ok (if b = a then c else mem.byte b.toNat, []) := by
  obtain ⟨-, rfl⟩ := memoryWriteByte_ok h
  rw [memoryReadByte_of_lt hb, DezMemory.byte_putByteAt ha]
  by_cases hba : b = a
  · rw [if_pos hba, if_pos (by rw [hba])]
  · rw [if_neg hba, if_neg (fun h => hba (BitVec.eq_of_toNat_eq h))]

theorem byte_of_word (mem : DezMemory) (i : ℕ) (hk : k < 4) :
    mem.byte (4 * i + k) = byteOf (mem.word i) (3 - k) :=
  (word_eq_iff_byte i (mem.word i)).mp rfl k hk

theorem readWord_bytes (mem : DezMemory) (hw : w.toNat < 2 ^ 30) : ∃ b : ℕ → Byte,
    (∀ k < 4, (memoryReadByte mem (byteAddress w k)).map Prod.fst = .ok (b k)) ∧
    (memoryReadWord mem w).map Prod.fst = .ok (wordOfBytes (b 3) (b 2) (b 1) (b 0)) := by
  by_cases hin : w.toNat < 4096
  · refine ⟨fun k => byteOf (mem.word w.toNat) (3 - k), ?_, ?_⟩
    · intro k hk
      have haddr := byteAddress_toNat hw hk
      rw [memoryReadByte_of_lt (by omega), haddr, byte_of_word mem w.toNat hk]
      rfl
    · rw [memoryReadWord_of_lt hin]
      simp only [Except.map, Nat.sub_self, Nat.reduceSub, wordOfBytes_byteOf]
  · refine ⟨fun _ => 0, ?_, ?_⟩
    · intro k hk
      have hge : (byteAddress w k >>> 2).toNat ≥ 4096 := by
        rw [byteAddress_word hw hk]
        omega
      simp only [memoryReadByte, hge, if_true]
      rfl
    · simp only [memoryReadWord, memoryIsValidAddress, hin]
      rfl

/-- The bytes of a word written at some of its offsets, in the order of the list. -/
theorem writesBytes_offsets (hacc : mem.Accepts w) (v : Word) (offsets : List ℕ)
    (hk : ∀ k ∈ offsets, k < 4) : ∃ mem',
    WritesBytes mem (offsets.map fun k => (byteAddress w k, byteOf v (3 - k))) mem' ∧
    ∀ j < 4, mem'.byte (4 * w.toNat + j) =
      if j ∈ offsets then byteOf v (3 - j) else mem.byte (4 * w.toNat + j) := by
  have hw := hacc.1
  induction offsets generalizing mem with
  | nil =>
    refine ⟨mem, .nil mem, ?_⟩
    simp
  | cons k offsets ih =>
    have hk4 : k < 4 := hk k List.mem_cons_self
    have haddr := byteAddress_toNat (w := w) (k := k) (by omega) hk4
    have hword := byteAddress_word (w := w) (k := k) (by omega) hk4
    have hwrite : memoryWriteByte mem (byteAddress w k) (byteOf v (3 - k)) =
        .ok (0, mem.putByteAt (byteAddress w k).toNat (byteOf v (3 - k)), []) :=
      memoryWriteByte_of_accepts (by rwa [hword]) _
    have hacc' : (mem.putByteAt (byteAddress w k).toNat (byteOf v (3 - k))).Accepts w :=
      (accepts_put ..).mpr hacc
    obtain ⟨mem', hrest, hbytes⟩ := ih hacc' (fun j hj => hk j (List.mem_cons_of_mem k hj))
    refine ⟨mem', .cons hwrite hrest, ?_⟩
    intro j hj
    rw [hbytes j hj, haddr, DezMemory.byte_putByteAt (by omega)]
    by_cases hjk : j = k
    · subst j
      simp
    · simp [hjk]

theorem viewsAgree (mem : DezMemory) : ViewsAgree mem where
  writeByte a v ha hw := by
    have hword : (a >>> 2).toNat < 4096 := by
      rw [wordAddr_toNat]
      omega
    exact ⟨_, memoryWriteByte_of_accepts (accepts_of_canWrite hword hw) v⟩
  readByte a b v mem' out ha hb h :=
    ⟨_, memoryReadByte_of_lt hb, readByte_after_writeByte ha hb h⟩
  readWord w hw := readWord_bytes mem hw
  wordThenBytes w v hw hwrite := by
    refine ⟨mem.put w.toNat v, ?_, ?_⟩
    · rw [memoryWriteWord_eq, if_pos (accepts_of_canWrite hw hwrite)]
    · intro k hk
      have haddr := byteAddress_toNat (w := w) (k := k) (by omega) hk
      rw [memoryReadByte_of_lt (by omega), haddr, byte_of_word _ _ hk, DezMemory.word_put_self hw]
  bytesThenWord w v offsets hw hwrite hperm := by
    have hk : ∀ k ∈ offsets, k < 4 := by
      intro k hk
      have hmem := hperm.mem_iff.mp hk
      simp at hmem
      omega
    obtain ⟨mem', hwrites, hbytes⟩ :=
      writesBytes_offsets (accepts_of_canWrite hw hwrite) v offsets hk
    refine ⟨mem', hwrites, ?_⟩
    have hword : mem'.word w.toNat = v := by
      rw [word_eq_iff_byte]
      intro k hk
      have hmem : k ∈ offsets := by
        rw [hperm.mem_iff]
        simp
        omega
      rw [hbytes k hk, if_pos hmem]
    rw [memoryReadWord_of_lt hw, hword]

end Dez.Machine
