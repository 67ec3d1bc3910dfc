import Dez.Machine.Protection

/-! The two builds of the memory system: with `DEBUG_MEMORY_STATS` it counts accesses. -/
namespace Dez.Machine

variable {mem mem' counted : DezMemory} {a v : Word}

/-- `memory_read_word` where `DEBUG_MEMORY_STATS` is defined. -/
def memoryReadWordCounted (mem : DezMemory) (address : Word) :
    Except Fault (Word × DezMemory × List Output) :=
  if address.toNat < 4096 then do
    let mem := { mem with accessCount := mem.accessCount + 1, readCount := mem.readCount + 1 }
    let mem := countUsage mem address
    let value ← mem.memory.read address.toNat
    return (value, mem, [])
  else memoryReadWord mem address

/-- `memory_write_word` where `DEBUG_MEMORY_STATS` is defined. -/
def memoryWriteWordCounted (mem : DezMemory) (address value : Word) :
    Except Fault (Int × DezMemory × List Output) :=
  if address.toNat < 4096 then
    if memoryIsCodeSegment mem address && mem.codeReadonly then
      return (-1, mem, [.printf "Error: Write to read-only memory at address 0x%04X\n" [address]])
    else do
      let mem := { mem with accessCount := mem.accessCount + 1, writeCount := mem.writeCount + 1 }
      let mem := countUsage mem address
      let cells ← mem.memory.write address.toNat value
      return (0, { mem with memory := cells }, [])
  else memoryWriteWord mem address value

def memoryGetUsage (mem : DezMemory) (segment : Word) : Word :=
  match segment.toNat with
  | 0 => mem.codeUsage
  | 1 => mem.dataUsage
  | 2 => mem.stackUsage
  | _ => 0

/-- A call of the memory system. -/
inductive MemoryCall
  | readWord (address : Word)
  | writeWord (address value : Word)
  | readByte (address : Word)
  | writeByte (address : Word) (value : Byte)
  | setProtection (segment : Word) (readonly : Bool)

/-- What a call returns and prints. -/
inductive MemoryAnswer
  | word (value : Word) (out : List Output)
  | byte (value : Byte) (out : List Output)
  | code (result : Int) (out : List Output)
  | nothing
  deriving DecidableEq

/-- A call in the build that counts or in the one that does not. -/
def MemoryCall.run (counted : Bool) (mem : DezMemory) :
    MemoryCall → Except Fault (MemoryAnswer × DezMemory)
  | readWord address => do
    let (value, mem, out) ←
      if counted then memoryReadWordCounted mem address else memoryReadWord mem address
    return (.word value out, mem)
  | writeWord address value => do
    let (result, mem, out) ←
      if counted then memoryWriteWordCounted mem address value
      else memoryWriteWord mem address value
    return (.code result out, mem)
  | readByte address => do
    let (value, out) ← memoryReadByte mem address
    return (.byte value out, mem)
  | writeByte address value => do
    let (result, mem, out) ← memoryWriteByte mem address value
    return (.code result out, mem)
  | setProtection segment readonly => return (.nothing, memorySetProtection mem segment readonly)

/-- Calls one after the other, with their answers. -/
def runCalls (counted : Bool) : List MemoryCall → DezMemory →
    Except Fault (List MemoryAnswer × DezMemory)
  | [], mem => return ([], mem)
  | call :: calls, mem => do
    let (answer, mem) ← call.run counted mem
    let (answers, mem) ← runCalls counted calls mem
    return (answer :: answers, mem)

/-- What a call did to a word of the memory. -/
inductive Access
  | read (address : Word)
  | write (address : Word)
  deriving DecidableEq

namespace Access

def isRead : Access → Bool
  | read _ => true
  | write _ => false

def address : Access → Word
  | read address => address
  | write address => address

/-- The number of the segment: code, data or stack. -/
def segment (access : Access) : ℕ :=
  if access.address.toNat < 0x400 then 0 else if access.address.toNat < 0x800 then 1 else 2

end Access

variable {done : List Access}

/-- A read inside the memory accesses a word, and so does a write that succeeds. -/
def MemoryCall.access : MemoryCall → MemoryAnswer → Option Access
  | readWord address, _ => if address.toNat < 4096 then some (.read address) else none
  | writeWord address _, .code result _ => if result = 0 then some (.write address) else none
  | _, _ => none

/-- The accesses of the calls, in order. -/
def accesses (calls : List MemoryCall) (answers : List MemoryAnswer) : List Access :=
  (calls.zip answers).filterMap fun call => call.1.access call.2

/-- How many accesses are in a segment. -/
def inSegment (done : List Access) (n : ℕ) : ℕ := done.countP fun access => access.segment = n

namespace DezMemory

/-- The memory with its counters at zero. -/
def uncounted (mem : DezMemory) : DezMemory :=
  { mem with
    codeUsage := 0
    dataUsage := 0
    stackUsage := 0
    maxStackUsage := 0
    accessCount := 0
    readCount := 0
    writeCount := 0 }

/-- Each counter is the number of the accesses of its kind, as far as a word holds it. The maximum
is the stack's number up to the largest word. -/
structure CountsTo (mem : DezMemory) (done : List Access) : Prop where
  access : mem.accessCount = BitVec.ofNat 32 done.length
  reads : mem.readCount = BitVec.ofNat 32 (done.countP Access.isRead)
  writes : mem.writeCount = BitVec.ofNat 32 (done.countP fun access => !access.isRead)
  code : memoryGetUsage mem 0#32 = BitVec.ofNat 32 (inSegment done 0)
  data : memoryGetUsage mem 1#32 = BitVec.ofNat 32 (inSegment done 1)
  stack : memoryGetUsage mem 2#32 = BitVec.ofNat 32 (inSegment done 2)
  highest : mem.maxStackUsage = BitVec.ofNat 32 (min (inSegment done 2) (2 ^ 32 - 1))

end DezMemory

open DezMemory

/-- The counting build keeps what the other has, and counts. -/
structure Counting (mem counted : DezMemory) (done : List Access) : Prop where
  same : counted.uncounted = mem
  segments : StandardSegments mem
  counts : counted.CountsTo done

theorem uncounted_countUsage (mem : DezMemory) (a : Word) :
    (countUsage mem a).uncounted = mem.uncounted := by
  unfold countUsage
  dsimp only
  split
  · rfl
  · split
    · rfl
    · split
      · split <;> rfl
      · rfl

theorem memory_countUsage (mem : DezMemory) (a : Word) :
    (countUsage mem a).memory = mem.memory := by
  have h := congrArg DezMemory.memory (uncounted_countUsage mem a)
  exact h

theorem uncounted_put (mem : DezMemory) (i : ℕ) (v : Word) :
    (mem.put i v).uncounted = mem.uncounted.put i v := by
  unfold DezMemory.put
  split <;> rfl

theorem DezMemory.CountsTo.put (h : mem.CountsTo done) (i : ℕ) (v : Word) :
    (mem.put i v).CountsTo done := by
  unfold DezMemory.put
  split
  · exact ⟨h.access, h.reads, h.writes, h.code, h.data, h.stack, h.highest⟩
  · exact h

theorem standardSegments_counted (h : StandardSegments mem.uncounted) : StandardSegments mem :=
  ⟨h.codeStart, h.codeEnd, h.dataStart, h.dataEnd, h.stackStart, h.stackEnd⟩

theorem isCode_iff (h : StandardSegments mem) (a : Word) :
    memoryIsCodeSegment mem a = true ↔ a.toNat < 0x400 := by
  unfold memoryIsCodeSegment
  rw [h.codeStart, h.codeEnd]
  simp only [BitVec.ofNat_eq_ofNat, BitVec.toNat_ofNat, Bool.and_eq_true, decide_eq_true_eq]
  omega

theorem isData_iff (h : StandardSegments mem) (a : Word) :
    memoryIsDataSegment mem a = true ↔ 0x400 ≤ a.toNat ∧ a.toNat < 0x800 := by
  unfold memoryIsDataSegment
  rw [h.dataStart, h.dataEnd]
  simp only [BitVec.ofNat_eq_ofNat, BitVec.toNat_ofNat, Bool.and_eq_true, decide_eq_true_eq]
  omega

theorem isStack_iff (h : StandardSegments mem) (a : Word) :
    memoryIsStackSegment mem a = true ↔ 0x800 ≤ a.toNat ∧ a.toNat < 0x1000 := by
  unfold memoryIsStackSegment
  rw [h.stackStart, h.stackEnd]
  simp only [BitVec.ofNat_eq_ofNat, BitVec.toNat_ofNat, Bool.and_eq_true, decide_eq_true_eq]
  omega

theorem ofNat_succ (n : ℕ) : BitVec.ofNat 32 (n + 1) = BitVec.ofNat 32 n + 1#32 :=
  BitVec.ofNat_add n 1

variable {access : Access}

theorem inSegment_append (done : List Access) (access : Access) (n : ℕ) :
    inSegment (done ++ [access]) n = inSegment done n + if access.segment = n then 1 else 0 := by
  unfold inSegment
  rw [List.countP_append, List.countP_singleton]
  simp only [decide_eq_true_eq]

/-- One more access counts in its segment only. -/
theorem usage_append (done : List Access) (access : Access) (n : ℕ) :
    BitVec.ofNat 32 (inSegment (done ++ [access]) n) =
      if access.segment = n then BitVec.ofNat 32 (inSegment done n) + 1#32
      else BitVec.ofNat 32 (inSegment done n) := by
  rw [inSegment_append]
  split
  · exact ofNat_succ (inSegment done n)
  · rfl

/-- The maximum follows the stack's count until that wraps around. -/
theorem highest_succ {s : ℕ} {stack highest : Word} (hstack : stack = BitVec.ofNat 32 s)
    (hhighest : highest = BitVec.ofNat 32 (min s (2 ^ 32 - 1))) :
    (if (stack + 1#32).toNat > highest.toNat then stack + 1#32 else highest) =
      BitVec.ofNat 32 (min (s + 1) (2 ^ 32 - 1)) := by
  have hnext : stack + 1#32 = BitVec.ofNat 32 (s + 1) := by rw [hstack, ofNat_succ s]
  rw [hnext]
  have hlt := (BitVec.ofNat 32 (s + 1)).isLt
  by_cases hs : s + 1 < 2 ^ 32
  · have hmin : min s (2 ^ 32 - 1) = s := by omega
    have hmin' : min (s + 1) (2 ^ 32 - 1) = s + 1 := by omega
    rw [hmin] at hhighest
    rw [hmin', hhighest, if_pos]
    rw [BitVec.toNat_ofNat, BitVec.toNat_ofNat]
    omega
  · have hmin : min s (2 ^ 32 - 1) = 2 ^ 32 - 1 := by omega
    have hmin' : min (s + 1) (2 ^ 32 - 1) = 2 ^ 32 - 1 := by omega
    rw [hmin] at hhighest
    have hmax : highest.toNat = 2 ^ 32 - 1 := by
      rw [hhighest]
      rfl
    rw [hmin', if_neg (by omega), hhighest]

/-- What `countUsage` does: one more for the segment of the address, and the stack's maximum. -/
theorem countUsage_eq (h : StandardSegments mem) (ha : access.address.toNat < 4096) :
    countUsage mem access.address = { mem with
      codeUsage := if access.segment = 0 then mem.codeUsage + 1 else mem.codeUsage
      dataUsage := if access.segment = 1 then mem.dataUsage + 1 else mem.dataUsage
      stackUsage := if access.segment = 2 then mem.stackUsage + 1 else mem.stackUsage
      maxStackUsage :=
        if access.segment = 2 then
          if (mem.stackUsage + 1).toNat > mem.maxStackUsage.toNat then mem.stackUsage + 1
          else mem.maxStackUsage
        else mem.maxStackUsage } := by
  unfold countUsage Access.segment
  by_cases hlow : access.address.toNat < 0x400
  · rw [if_pos ((isCode_iff h _).mpr hlow), if_pos hlow]
    rfl
  · rw [if_neg (mt (isCode_iff h _).mp hlow), if_neg hlow]
    by_cases hmid : access.address.toNat < 0x800
    · rw [if_pos ((isData_iff h _).mpr ⟨Nat.not_lt.mp hlow, hmid⟩), if_pos hmid]
      rfl
    · rw [if_neg fun hdata => hmid ((isData_iff h _).mp hdata).2, if_neg hmid,
        if_pos ((isStack_iff h _).mpr ⟨Nat.not_lt.mp hmid, ha⟩)]
      dsimp only
      split <;> rfl

/-- Counting one more access, which the caller has counted by its kind. -/
theorem countsTo_countUsage (hd : StandardSegments mem) (ha : access.address.toNat < 4096)
    {count read write : Word} (h : mem.CountsTo done)
    (hcount : count = BitVec.ofNat 32 (done ++ [access]).length)
    (hread : read = BitVec.ofNat 32 ((done ++ [access]).countP Access.isRead))
    (hwrite : write = BitVec.ofNat 32 ((done ++ [access]).countP fun access => !access.isRead)) :
    (countUsage { mem with accessCount := count, readCount := read, writeCount := write }
      access.address).CountsTo (done ++ [access]) := by
  have hd' : StandardSegments
      { mem with accessCount := count, readCount := read, writeCount := write } :=
    ⟨hd.codeStart, hd.codeEnd, hd.dataStart, hd.dataEnd, hd.stackStart, hd.stackEnd⟩
  rw [countUsage_eq hd' ha]
  constructor
  · exact hcount
  · exact hread
  · exact hwrite
  · rw [usage_append, ← h.code]
    rfl
  · rw [usage_append, ← h.data]
    rfl
  · rw [usage_append, ← h.stack]
    rfl
  · have happend := inSegment_append done access 2
    by_cases hstack : access.segment = 2
    · rw [if_pos hstack] at happend
      rw [happend, ← highest_succ h.stack h.highest]
      exact if_pos hstack
    · rw [if_neg hstack, Nat.add_zero] at happend
      rw [happend, ← h.highest]
      exact if_neg hstack

/-- A read inside the memory counts as one access and otherwise changes nothing. -/
theorem readWord_counted (h : Counting mem counted done) (a : Word) :
    ∃ answer counted', (MemoryCall.readWord a).run false mem = .ok (answer, mem) ∧
      (MemoryCall.readWord a).run true counted = .ok (answer, counted') ∧
      Counting mem counted' (done ++ ((MemoryCall.readWord a).access answer).toList) := by
  obtain ⟨rfl, hsegments, hcounts⟩ := h
  by_cases ha : a.toNat < 4096
  · refine ⟨.word (counted.word a.toNat) [], countUsage { counted with
      accessCount := counted.accessCount + 1
      readCount := counted.readCount + 1 } a, ?_, ?_, ?_⟩
    · simp only [MemoryCall.run, Bool.false_eq_true, if_false, memoryReadWord_of_lt ha]
      rfl
    · simp only [MemoryCall.run, if_true, memoryReadWordCounted, ha, memory_countUsage,
        CArray.read_of_lt _ ha, word_of_lt ha]
      rfl
    · have hone : ((MemoryCall.readWord a).access (.word (counted.word a.toNat) [])).toList =
          [.read a] := by
        rw [MemoryCall.access, if_pos ha]
        rfl
      rw [hone]
      have hcount : (countUsage { counted with
          accessCount := counted.accessCount + 1
          readCount := counted.readCount + 1 } a).CountsTo (done ++ [.read a]) := by
        apply @countsTo_countUsage _ _ (.read a) (standardSegments_counted hsegments) ha _ _ _
          hcounts
        · rw [hcounts.access, List.length_append, List.length_singleton, ofNat_succ done.length]
          rfl
        · rw [hcounts.reads, List.countP_append, List.countP_singleton, Access.isRead,
            if_pos rfl, ofNat_succ (done.countP Access.isRead)]
          rfl
        · rw [hcounts.writes, List.countP_append, List.countP_singleton, Access.isRead,
            Bool.not_true, if_neg Bool.false_ne_true, Nat.add_zero]
      exact ⟨uncounted_countUsage _ a, hsegments, hcount⟩
  · refine ⟨.word 0 [.printf "Error: Memory read out of bounds at address 0x%04X\n" [a]], counted,
      ?_, ?_, ?_⟩
    · simp only [MemoryCall.run, Bool.false_eq_true, if_false, memoryReadWord, ha,
        memoryIsValidAddress, decide_false, Bool.not_false, if_true]
      rfl
    · simp only [MemoryCall.run, if_true, memoryReadWordCounted, memoryReadWord, ha, if_false,
        memoryIsValidAddress, decide_false, Bool.not_false]
      rfl
    · rw [MemoryCall.access, if_neg ha, Option.toList_none, List.append_nil]
      exact ⟨rfl, hsegments, hcounts⟩

/-- The write of the counting build, where the memory accepts the address. -/
theorem writeWordCounted_of_accepts (h : mem.Accepts a) (v : Word) :
    memoryWriteWordCounted mem a v = .ok (0, (countUsage { mem with
      accessCount := mem.accessCount + 1
      writeCount := mem.writeCount + 1 } a).put a.toNat v, []) := by
  obtain ⟨ha, hopen⟩ := h
  simp only [memoryWriteWordCounted, ha, if_true, hopen, Bool.false_eq_true, if_false,
    memory_countUsage, CArray.write_of_lt _ ha, DezMemory.put, dif_pos]
  rfl

/-- What the memory does not accept the counting build refuses in the same way. -/
theorem writeWordCounted_of_not_accepts (h : ¬ mem.Accepts a) (v : Word) :
    memoryWriteWordCounted mem a v = .ok (-1, mem, [refusal a]) := by
  by_cases ha : a.toNat < 4096
  · have hclosed : (memoryIsCodeSegment mem a && mem.codeReadonly) = true := by
      by_contra hopen
      exact h ⟨ha, by simpa using hopen⟩
    simp only [memoryWriteWordCounted, ha, if_true, hclosed, refusal]
    rfl
  · rw [memoryWriteWordCounted, if_neg ha, memoryWriteWord_eq, if_neg h]

theorem writeWord_counted (h : Counting mem counted done) (a v : Word) :
    ∃ answer mem' counted', (MemoryCall.writeWord a v).run false mem = .ok (answer, mem') ∧
      (MemoryCall.writeWord a v).run true counted = .ok (answer, counted') ∧
      Counting mem' counted' (done ++ ((MemoryCall.writeWord a v).access answer).toList) := by
  obtain ⟨rfl, hsegments, hcounts⟩ := h
  have hsame : counted.uncounted.Accepts a ↔ counted.Accepts a := Iff.rfl
  by_cases hacc : counted.Accepts a
  · refine ⟨.code 0 [], counted.uncounted.put a.toNat v, (countUsage { counted with
      accessCount := counted.accessCount + 1
      writeCount := counted.writeCount + 1 } a).put a.toNat v, ?_, ?_, ?_⟩
    · simp only [MemoryCall.run, Bool.false_eq_true, if_false, memoryWriteWord_eq,
        hsame.mpr hacc, if_true]
      rfl
    · simp only [MemoryCall.run, if_true, writeWordCounted_of_accepts hacc]
      rfl
    · have hcount : (countUsage { counted with
          accessCount := counted.accessCount + 1
          writeCount := counted.writeCount + 1 } a).CountsTo (done ++ [.write a]) := by
        apply @countsTo_countUsage _ _ (.write a) (standardSegments_counted hsegments) hacc.1 _ _ _
          hcounts
        · rw [hcounts.access, List.length_append, List.length_singleton, ofNat_succ done.length]
          rfl
        · rw [hcounts.reads, List.countP_append, List.countP_singleton, Access.isRead,
            if_neg Bool.false_ne_true, Nat.add_zero]
        · rw [hcounts.writes, List.countP_append, List.countP_singleton, Access.isRead,
            Bool.not_false, if_pos rfl, ofNat_succ (done.countP _)]
          rfl
      refine ⟨?_, hsegments.put _ v, hcount.put _ v⟩
      rw [uncounted_put, uncounted_countUsage]
      rfl
  · refine ⟨.code (-1) [refusal a], counted.uncounted, counted, ?_, ?_, rfl, hsegments, ?_⟩
    · simp only [MemoryCall.run, Bool.false_eq_true, if_false, memoryWriteWord_eq,
        mt hsame.mp hacc]
      rfl
    · simp only [MemoryCall.run, if_true, writeWordCounted_of_not_accepts hacc]
      rfl
    · exact (List.append_nil done).symm ▸ hcounts

/-- A byte is written in the same way in both builds, and not counted. -/
theorem writeByte_uncounted (mem : DezMemory) (a : Word) (c : Byte) :
    ∃ r mem' out, memoryWriteByte mem a c = .ok (r, mem', out) ∧
      memoryWriteByte mem.uncounted a c = .ok (r, mem'.uncounted, out) := by
  by_cases ha : a.toNat < 16384
  · have hsame : mem.uncounted.Accepts (a >>> 2) ↔ mem.Accepts (a >>> 2) := Iff.rfl
    rw [memoryWriteByte_eq c ha, memoryWriteByte_eq c ha]
    by_cases hacc : mem.Accepts (a >>> 2)
    · rw [if_pos hacc, if_pos (hsame.mpr hacc)]
      refine ⟨_, _, _, rfl, ?_⟩
      rw [uncounted_put]
      rfl
    · rw [if_neg hacc, if_neg (mt hsame.mp hacc)]
      exact ⟨_, _, _, rfl, rfl⟩
  · have hout : (a >>> 2).toNat ≥ 4096 := by
      rw [BitVec.toNat_ushiftRight, Nat.shiftRight_eq_div_pow]
      omega
    simp only [memoryWriteByte, hout, if_true]
    exact ⟨_, _, _, rfl, rfl⟩

theorem readByte_uncounted (mem : DezMemory) (a : Word) :
    ∃ c out, memoryReadByte mem a = .ok (c, out) ∧
      memoryReadByte mem.uncounted a = .ok (c, out) := by
  by_cases ha : a.toNat < 16384
  · exact ⟨_, _, memoryReadByte_of_lt ha, memoryReadByte_of_lt ha⟩
  · have hout : (a >>> 2).toNat ≥ 4096 := by
      rw [BitVec.toNat_ushiftRight, Nat.shiftRight_eq_div_pow]
      omega
    simp only [memoryReadByte, hout, if_true]
    exact ⟨_, _, rfl, rfl⟩

/-- One call in both builds: the answers are the same, and an access is counted. -/
theorem call_counted (h : Counting mem counted done) (call : MemoryCall) :
    ∃ answer mem' counted', call.run false mem = .ok (answer, mem') ∧
      call.run true counted = .ok (answer, counted') ∧
      Counting mem' counted' (done ++ (call.access answer).toList) := by
  have hnone : ∀ next : DezMemory, next.CountsTo done →
      next.CountsTo (done ++ (none : Option Access).toList) :=
    fun next hnext => (List.append_nil done).symm ▸ hnext
  cases call with
  | readWord a =>
    obtain ⟨answer, counted', hrun⟩ := readWord_counted h a
    exact ⟨answer, mem, counted', hrun⟩
  | writeWord a v => exact writeWord_counted h a v
  | readByte a =>
    obtain ⟨rfl, hsegments, hcounts⟩ := h
    obtain ⟨c, out, hread, hsame⟩ := readByte_uncounted counted a
    refine ⟨.byte c out, counted.uncounted, counted, ?_, ?_, rfl, hsegments, ?_⟩
    · simp only [MemoryCall.run, hsame]
      rfl
    · simp only [MemoryCall.run, hread]
      rfl
    · exact hnone _ hcounts
  | writeByte a c =>
    obtain ⟨rfl, hsegments, hcounts⟩ := h
    obtain ⟨r, counted', out, hwrite, hsame⟩ := writeByte_uncounted counted a c
    have hkept : StandardSegments counted'.uncounted ∧ counted'.CountsTo done := by
      obtain heq | ⟨i, w, heq⟩ := memoryWriteByte_memory hwrite
      · rw [heq]
        exact ⟨hsegments, hcounts⟩
      · rw [heq, uncounted_put]
        exact ⟨hsegments.put i w, hcounts.put i w⟩
    refine ⟨.code r out, counted'.uncounted, counted', ?_, ?_, rfl, hkept.1, ?_⟩
    · simp only [MemoryCall.run, hsame]
      rfl
    · simp only [MemoryCall.run, hwrite]
      rfl
    · exact hnone _ hkept.2
  | setProtection segment readonly =>
    obtain ⟨rfl, hsegments, hcounts⟩ := h
    refine ⟨.nothing, _, _, rfl, rfl, ?_, hsegments.setProtection segment readonly, ?_⟩
    · unfold memorySetProtection
      split <;> rfl
    · apply hnone
      unfold memorySetProtection
      split
      case h_4 => exact hcounts
      all_goals exact ⟨hcounts.access, hcounts.reads, hcounts.writes, hcounts.code, hcounts.data,
        hcounts.stack, hcounts.highest⟩

theorem accesses_cons (call : MemoryCall) (answer : MemoryAnswer) (calls : List MemoryCall)
    (answers : List MemoryAnswer) :
    accesses (call :: calls) (answer :: answers) =
      (call.access answer).toList ++ accesses calls answers := by
  unfold accesses
  rw [List.zip_cons_cons, List.filterMap_cons]
  cases call.access answer <;> rfl

theorem calls_counted (calls : List MemoryCall) (h : Counting mem counted done) :
    ∃ answers mem' counted', runCalls false calls mem = .ok (answers, mem') ∧
      runCalls true calls counted = .ok (answers, counted') ∧
      Counting mem' counted' (done ++ accesses calls answers) := by
  induction calls generalizing mem counted done with
  | nil => exact ⟨[], mem, counted, rfl, rfl, (List.append_nil done).symm ▸ h⟩
  | cons call calls ih =>
    obtain ⟨answer, mem1, counted1, hrun, hcounted, h1⟩ := call_counted h call
    obtain ⟨answers, mem2, counted2, hruns, hcounteds, h2⟩ := ih h1
    refine ⟨answer :: answers, mem2, counted2, ?_, ?_, ?_⟩
    · simp only [runCalls, hrun, ok_bind, hruns]
      rfl
    · simp only [runCalls, hcounted, ok_bind, hcounteds]
      rfl
    · rw [accesses_cons, ← List.append_assoc]
      exact h2

/-- From `memory_init` on, any calls return and print the same in the build that counts and in the
one that does not, and leave the same memory; one build's counters stay at zero, and each of the
other's is the number of the accesses of its kind or in its segment. -/
theorem statistics_count_accesses (calls : List MemoryCall) :
    ∃ answers mem counted, runCalls false calls memoryInit = .ok (answers, mem) ∧
      runCalls true calls memoryInit = .ok (answers, counted) ∧
      mem = counted.uncounted ∧ counted.CountsTo (accesses calls answers) := by
  have hinit : Counting memoryInit memoryInit [] :=
    ⟨rfl, standardSegments_init, rfl, rfl, rfl, rfl, rfl, rfl, rfl⟩
  obtain ⟨answers, mem, counted, hrun, hcounted, h⟩ := calls_counted calls hinit
  rw [List.nil_append] at h
  exact ⟨answers, mem, counted, hrun, hcounted, h.same.symm, h.counts⟩

end Dez.Machine
