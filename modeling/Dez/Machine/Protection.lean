import Dez.Machine.Loader

/-! The write policy of `memory_can_write` against the two write accessors, over every history of
protection changes and writes. -/
namespace Dez.Machine

/-- What sequences of `memory_set_protection`, `memory_write_word` and `memory_write_byte` make of
a memory that `memory_init` set up. -/
inductive MemoryReachable : DezMemory → Prop
  | init : MemoryReachable memoryInit
  | setProtection {mem : DezMemory} (segment : Word) (readonly : Bool) (h : MemoryReachable mem) :
      MemoryReachable (memorySetProtection mem segment readonly)
  | writeWord {mem mem' : DezMemory} {a v : Word} {r : Int} {out : List Output}
      (h : MemoryReachable mem) (hw : memoryWriteWord mem a v = .ok (r, mem', out)) :
      MemoryReachable mem'
  | writeByte {mem mem' : DezMemory} {b : Word} {c : Byte} {r : Int} {out : List Output}
      (h : MemoryReachable mem) (hw : memoryWriteByte mem b c = .ok (r, mem', out)) :
      MemoryReachable mem'

/-- The policy's answer: `memory_is_valid_address` and `memory_can_write`. -/
def Writable (mem : DezMemory) (a : Word) : Prop :=
  memoryIsValidAddress mem a = true ∧ memoryCanWrite mem a = true

instance (mem : DezMemory) (a : Word) : Decidable (Writable mem a) :=
  inferInstanceAs (Decidable (_ ∧ _))

/-- Both accessors follow the policy at a word: a write is stored where the policy allows it, and
is refused and changes nothing where it does not. -/
structure OnePolicy (mem : DezMemory) (a : Word) : Prop where
  word : ∀ v : Word, if Writable mem a then memoryWriteWord mem a v = .ok (0, mem.put a.toNat v, [])
    else ∃ out, memoryWriteWord mem a v = .ok (-1, mem, out)
  byte : ∀ (b : Word) (c : Byte), b >>> 2 = a →
    if Writable mem a then memoryWriteByte mem b c = .ok (0, mem.putByteAt b.toNat c, [])
    else ∃ out, memoryWriteByte mem b c = .ok (-1, mem, out)

/-- The segments as `memory_init` lays them out. -/
structure StandardSegments (mem : DezMemory) : Prop where
  codeStart : mem.codeStart = 0x0000
  codeEnd : mem.codeEnd = 0x03FF
  dataStart : mem.dataStart = 0x0400
  dataEnd : mem.dataEnd = 0x07FF
  stackStart : mem.stackStart = 0x0800
  stackEnd : mem.stackEnd = 0x0FFF

variable {mem mem' : DezMemory} {a b v : Word} {c : Byte} {r : Int} {out : List Output}

theorem standardSegments_init : StandardSegments memoryInit := ⟨rfl, rfl, rfl, rfl, rfl, rfl⟩

theorem StandardSegments.put (h : StandardSegments mem) (i : ℕ) (v : Word) :
    StandardSegments (mem.put i v) := by
  unfold DezMemory.put
  split
  · exact ⟨h.codeStart, h.codeEnd, h.dataStart, h.dataEnd, h.stackStart, h.stackEnd⟩
  · exact h

theorem StandardSegments.setProtection (h : StandardSegments mem) (segment : Word)
    (readonly : Bool) : StandardSegments (memorySetProtection mem segment readonly) := by
  unfold memorySetProtection
  split
  case h_4 => exact h
  all_goals exact ⟨h.codeStart, h.codeEnd, h.dataStart, h.dataEnd, h.stackStart, h.stackEnd⟩

/-- `memory_write_byte` stores where `memory_write_word` does, and is refused elsewhere. -/
theorem memoryWriteByte_cases (mem : DezMemory) (b : Word) (c : Byte) :
    if mem.Accepts (b >>> 2) then memoryWriteByte mem b c = .ok (0, mem.putByteAt b.toNat c, [])
    else ∃ out, memoryWriteByte mem b c = .ok (-1, mem, out) := by
  by_cases hb : b.toNat < 16384
  · rw [memoryWriteByte_eq c hb]
    split
    · rfl
    · exact ⟨_, rfl⟩
  · have hacc : ¬ mem.Accepts (b >>> 2) := by
      rintro ⟨hlt, -⟩
      rw [wordAddr_toNat] at hlt
      omega
    have hge : b.toNat / 4 ≥ 4096 := by omega
    rw [if_neg hacc]
    simp only [memoryWriteByte, wordAddr_toNat, hge, if_true]
    exact ⟨_, rfl⟩

theorem memoryWriteWord_cases (mem : DezMemory) (a v : Word) :
    if mem.Accepts a then memoryWriteWord mem a v = .ok (0, mem.put a.toNat v, [])
    else ∃ out, memoryWriteWord mem a v = .ok (-1, mem, out) := by
  rw [memoryWriteWord_eq]
  split
  · rfl
  · exact ⟨_, rfl⟩

/-- A write leaves the memory alone or replaces one of its words. -/
theorem memoryWriteWord_memory (h : memoryWriteWord mem a v = .ok (r, mem', out)) :
    mem' = mem ∨ ∃ i w, mem' = mem.put i w := by
  have hcases := memoryWriteWord_cases mem a v
  split at hcases
  · cases h.symm.trans hcases
    exact .inr ⟨_, _, rfl⟩
  · obtain ⟨out', hcases⟩ := hcases
    cases h.symm.trans hcases
    exact .inl rfl

theorem memoryWriteByte_memory (h : memoryWriteByte mem b c = .ok (r, mem', out)) :
    mem' = mem ∨ ∃ i w, mem' = mem.put i w := by
  have hcases := memoryWriteByte_cases mem b c
  split at hcases
  · cases h.symm.trans hcases
    exact .inr ⟨_, _, rfl⟩
  · obtain ⟨out', hcases⟩ := hcases
    cases h.symm.trans hcases
    exact .inl rfl

theorem standardSegments_reachable (h : MemoryReachable mem) : StandardSegments mem := by
  induction h with
  | init => exact standardSegments_init
  | setProtection segment readonly _ ih => exact ih.setProtection segment readonly
  | writeWord _ hw ih =>
    rcases memoryWriteWord_memory hw with rfl | ⟨i, w, rfl⟩
    · exact ih
    · exact ih.put i w
  | writeByte _ hw ih =>
    rcases memoryWriteByte_memory hw with rfl | ⟨i, w, rfl⟩
    · exact ih
    · exact ih.put i w

/-- Two decisions on one memory, each with its own way to accept, agree where the outcome shows. -/
theorem onePolicy_iff_accepts (mem : DezMemory) (a : Word) :
    OnePolicy mem a ↔ (mem.Accepts a ↔ Writable mem a) := by
  constructor
  · intro h
    have hpolicy := h.word 0
    have hcode := memoryWriteWord_cases mem a 0
    constructor
    · intro hacc
      by_contra hw
      rw [if_neg hw] at hpolicy
      rw [if_pos hacc] at hcode
      obtain ⟨out, hrefused⟩ := hpolicy
      cases hcode.symm.trans hrefused
    · intro hw
      by_contra hacc
      rw [if_pos hw] at hpolicy
      rw [if_neg hacc] at hcode
      obtain ⟨out, hrefused⟩ := hcode
      cases hpolicy.symm.trans hrefused
  · intro h
    refine ⟨?_, ?_⟩
    · intro v
      simpa only [h] using memoryWriteWord_cases mem a v
    · rintro b c rfl
      simpa only [h] using memoryWriteByte_cases mem b c

/-- The flags of the data and the stack segment permit writes at the word. -/
def FlagsPermit (mem : DezMemory) (a : Word) : Prop :=
  (memoryIsDataSegment mem a = true → mem.dataWritable = true) ∧
  (memoryIsStackSegment mem a = true → mem.stackWritable = true)

/-- The accessors ask about the code segment only, so they follow the policy exactly where the
other two flags have nothing to refuse. -/
theorem accepts_iff_writable (h : StandardSegments mem) (a : Word) :
    (mem.Accepts a ↔ Writable mem a) ↔ FlagsPermit mem a := by
  unfold DezMemory.Accepts Writable FlagsPermit memoryCanWrite memoryIsValidAddress
    memoryIsCodeSegment memoryIsDataSegment memoryIsStackSegment
  rw [h.codeStart, h.codeEnd, h.dataStart, h.dataEnd, h.stackStart, h.stackEnd]
  by_cases hcode : a.toNat ≤ 0x3FF
  · have hdata : ¬ 0x400 ≤ a.toNat := by omega
    have hstack : ¬ 0x800 ≤ a.toNat := by omega
    simp [hcode, hdata, hstack]
  · by_cases hdata : a.toNat ≤ 0x7FF
    · have hlow : 0x400 ≤ a.toNat := by omega
      have hstack : ¬ 0x800 ≤ a.toNat := by omega
      have hvalid : a.toNat < 4096 := by omega
      simp [hcode, hdata, hlow, hstack, hvalid]
    · by_cases hstack : a.toNat ≤ 0xFFF
      · have hlow : 0x800 ≤ a.toNat := by omega
        have hvalid : a.toNat < 4096 := by omega
        simp [hcode, hdata, hstack, hlow, hvalid]
      · have hvalid : ¬ a.toNat < 4096 := by omega
        simp [hdata, hstack, hvalid]

theorem onePolicy_iff (h : MemoryReachable mem) (a : Word) :
    OnePolicy mem a ↔ FlagsPermit mem a :=
  (onePolicy_iff_accepts mem a).trans (accepts_iff_writable (standardSegments_reachable h) a)

/-- The data segment made read-only, and a word of the stack. -/
theorem onePolicy_dataReadonly :
    MemoryReachable (memorySetProtection memoryInit 1#32 true) ∧
      OnePolicy (memorySetProtection memoryInit 1#32 true) 0x900#32 := by
  have hreach := MemoryReachable.init.setProtection 1#32 true
  refine ⟨hreach, (onePolicy_iff hreach 0x900#32).mpr ⟨fun hdata => ?_, fun _ => rfl⟩⟩
  exact absurd hdata (by decide)

/-- The data segment made read-only, and the first word of it. -/
theorem not_onePolicy_data :
    ¬ ∀ mem : DezMemory, MemoryReachable mem → ∀ a, OnePolicy mem a := by
  intro h
  have hreach := MemoryReachable.init.setProtection 1#32 true
  have hflags : ¬ FlagsPermit (memorySetProtection memoryInit 1#32 true) 0x400#32 := by
    rintro ⟨hdata, -⟩
    cases hdata (by decide)
  have hiff := (onePolicy_iff_accepts _ _).trans
    (accepts_iff_writable (standardSegments_reachable hreach) 0x400#32)
  exact hflags (hiff.mp (h _ hreach _))

end Dez.Machine
