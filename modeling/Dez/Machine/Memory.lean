import Dez.Words
import Dez.Arrays

/-! The memory system of `dez_memory.c`: segments, protection, and the word and byte accessors. -/
namespace Dez.Machine

/-- What one `printf` call prints; characters the program prints are kept apart from messages. -/
inductive Output
  | putc (c : Byte)
  | printf (format : String) (args : List Word)
  deriving DecidableEq, Repr

/-- `dez_memory_t` -/
structure DezMemory where
  memory : CArray Word 4096
  codeStart : Word
  codeEnd : Word
  dataStart : Word
  dataEnd : Word
  stackStart : Word
  stackEnd : Word
  codeReadonly : Bool
  dataWritable : Bool
  stackWritable : Bool
  codeUsage : Word
  dataUsage : Word
  stackUsage : Word
  maxStackUsage : Word
  accessCount : Word
  readCount : Word
  writeCount : Word

def memoryInit : DezMemory where
  memory := fun _ => 0
  codeStart := 0x0000
  codeEnd := 0x03FF
  dataStart := 0x0400
  dataEnd := 0x07FF
  stackStart := 0x0800
  stackEnd := 0x0FFF
  codeReadonly := true
  dataWritable := true
  stackWritable := true
  codeUsage := 0
  dataUsage := 0
  stackUsage := 0
  maxStackUsage := 0
  accessCount := 0
  readCount := 0
  writeCount := 0

def memoryIsValidAddress (_mem : DezMemory) (address : Word) : Bool := address.toNat < 4096

def memoryIsCodeSegment (mem : DezMemory) (address : Word) : Bool :=
  mem.codeStart.toNat ≤ address.toNat && address.toNat ≤ mem.codeEnd.toNat

def memoryIsDataSegment (mem : DezMemory) (address : Word) : Bool :=
  mem.dataStart.toNat ≤ address.toNat && address.toNat ≤ mem.dataEnd.toNat

def memoryIsStackSegment (mem : DezMemory) (address : Word) : Bool :=
  mem.stackStart.toNat ≤ address.toNat && address.toNat ≤ mem.stackEnd.toNat

def memoryCanWrite (mem : DezMemory) (address : Word) : Bool :=
  if memoryIsCodeSegment mem address then !mem.codeReadonly
  else if memoryIsDataSegment mem address then mem.dataWritable
  else if memoryIsStackSegment mem address then mem.stackWritable
  else false

/-- The per-segment counters that the slow paths of both word accessors keep. -/
def countUsage (mem : DezMemory) (address : Word) : DezMemory :=
  if memoryIsCodeSegment mem address then { mem with codeUsage := mem.codeUsage + 1 }
  else if memoryIsDataSegment mem address then { mem with dataUsage := mem.dataUsage + 1 }
  else if memoryIsStackSegment mem address then
    let mem := { mem with stackUsage := mem.stackUsage + 1 }
    if mem.stackUsage.toNat > mem.maxStackUsage.toNat then
      { mem with maxStackUsage := mem.stackUsage }
    else mem
  else mem

/-- The value read, the memory with its counters, and what was printed. -/
def memoryReadWord (mem : DezMemory) (address : Word) :
    Except Fault (Word × DezMemory × List Output) :=
  if address.toNat < 4096 then do
    let value ← mem.memory.read address.toNat
    return (value, mem, [])
  else if !memoryIsValidAddress mem address then
    return (0, mem, [.printf "Error: Memory read out of bounds at address 0x%04X\n" [address]])
  else do
    let mem := { mem with accessCount := mem.accessCount + 1, readCount := mem.readCount + 1 }
    let mem := countUsage mem address
    let value ← mem.memory.read (address >>> 2).toNat
    return (value, mem, [])

/-- The C result (`0` or `-1`), the memory after the call, and what was printed. -/
def memoryWriteWord (mem : DezMemory) (address value : Word) :
    Except Fault (Int × DezMemory × List Output) :=
  if address.toNat < 4096 then
    -- the fast path asks about the code segment only
    if memoryIsCodeSegment mem address && mem.codeReadonly then
      return (-1, mem, [.printf "Error: Write to read-only memory at address 0x%04X\n" [address]])
    else do
      let cells ← mem.memory.write address.toNat value
      return (0, { mem with memory := cells }, [])
  else if !memoryIsValidAddress mem address then
    return (-1, mem, [.printf "Error: Memory write out of bounds at address 0x%04X\n" [address]])
  else if !memoryCanWrite mem address then
    return (-1, mem, [.printf "Error: Write to read-only memory at address 0x%04X\n" [address]])
  else do
    let mem := { mem with accessCount := mem.accessCount + 1, writeCount := mem.writeCount + 1 }
    let mem := countUsage mem address
    let cells ← mem.memory.write (address >>> 2).toNat value
    return (0, { mem with memory := cells }, [])

def memoryReadByte (mem : DezMemory) (address : Word) : Except Fault (Byte × List Output) :=
  let wordAddr := address >>> 2
  let byteOffset := address &&& 3
  if wordAddr.toNat ≥ 4096 then
    return (0, [.printf "Error: Memory read out of bounds at address 0x%04X\n" [address]])
  else do
    let word ← mem.memory.read wordAddr.toNat
    return (((word >>> (24#32 - (byteOffset <<< 3)).toNat) &&& 0xFF).setWidth 8, [])

/-- `0xFF << shift` is a shift of an `int`; for the first byte of a word it reaches the sign bit,
and is taken as `gcc` and `clang` define it. -/
def memoryWriteByte (mem : DezMemory) (address : Word) (value : Byte) :
    Except Fault (Int × DezMemory × List Output) :=
  let wordAddr := address >>> 2
  let byteOffset := address &&& 3
  if wordAddr.toNat ≥ 4096 then
    return (-1, mem, [.printf "Error: Memory write out of bounds at address 0x%04X\n" [address]])
  else if memoryIsCodeSegment mem wordAddr && mem.codeReadonly then
    return (-1, mem, [.printf "Error: Write to read-only memory at address 0x%04X\n" [address]])
  else do
    let word ← mem.memory.read wordAddr.toNat
    let shift := 24#32 - (byteOffset <<< 3)
    let mask := (0xFF : Word) <<< shift.toNat
    let cells ← mem.memory.write wordAddr.toNat
      ((word &&& ~~~mask) ||| (value.setWidth 32 <<< shift.toNat))
    return (0, { mem with memory := cells }, [])

def memorySetProtection (mem : DezMemory) (segment : Word) (readonly : Bool) : DezMemory :=
  match segment.toNat with
  | 0 => { mem with codeReadonly := readonly }
  | 1 => { mem with dataWritable := !readonly }
  | 2 => { mem with stackWritable := !readonly }
  | _ => mem

namespace DezMemory

/-- The word at an address, with `0` outside the array. -/
def word (mem : DezMemory) (a : ℕ) : Word := if h : a < 4096 then mem.memory ⟨a, h⟩ else 0

/-- The byte at a byte address: byte 0 of a word is its highest. -/
def byte (mem : DezMemory) (b : ℕ) : Byte := byteOf (mem.word (b / 4)) (3 - b % 4)

/-- The memory with one word replaced; nothing happens outside the array. -/
def put (mem : DezMemory) (a : ℕ) (v : Word) : DezMemory :=
  if h : a < 4096 then { mem with memory := mem.memory.set ⟨a, h⟩ v } else mem

/-- `memory_write_word` accepts the address. -/
def Accepts (mem : DezMemory) (a : Word) : Prop :=
  a.toNat < 4096 ∧ (memoryIsCodeSegment mem a && mem.codeReadonly) = false

instance (mem : DezMemory) (a : Word) : Decidable (mem.Accepts a) :=
  inferInstanceAs (Decidable (_ ∧ _))

/-- The message of a write that is not accepted. -/
def refusal (a : Word) : Output :=
  if a.toNat < 4096 then .printf "Error: Write to read-only memory at address 0x%04X\n" [a]
  else .printf "Error: Memory write out of bounds at address 0x%04X\n" [a]

theorem word_of_lt {mem : DezMemory} {a : ℕ} (h : a < 4096) : mem.word a = mem.memory ⟨a, h⟩ := by
  simp [word, h]

theorem word_put (mem : DezMemory) (a b : ℕ) (v : Word) :
    (mem.put a v).word b = if b = a ∧ b < 4096 then v else mem.word b := by
  by_cases ha : a < 4096 <;> by_cases hb : b < 4096 <;>
    simp [word, put, ha, hb, CArray.set_apply]
  intro h
  omega

theorem word_put_self {mem : DezMemory} {a : ℕ} (h : a < 4096) (v : Word) :
    (mem.put a v).word a = v := by
  simp [word_put, h]

theorem word_put_of_ne {mem : DezMemory} {a b : ℕ} (h : b ≠ a) (v : Word) :
    (mem.put a v).word b = mem.word b := by
  simp [word_put, h]

/-- Everything but the cells: a write keeps the segments, the protection and the counters. -/
def SameLayout (m n : DezMemory) : Prop := { m with memory := n.memory } = n

theorem sameLayout_put (mem : DezMemory) (a : ℕ) (v : Word) : mem.SameLayout (mem.put a v) := by
  unfold SameLayout put
  split <;> rfl

theorem SameLayout.trans {k m n : DezMemory} (h1 : k.SameLayout m) (h2 : m.SameLayout n) :
    k.SameLayout n := by
  unfold SameLayout at *
  rw [← h2, ← h1]

end DezMemory

open DezMemory

theorem memoryReadWord_of_lt {mem : DezMemory} {a : Word} (h : a.toNat < 4096) :
    memoryReadWord mem a = .ok (mem.word a.toNat, mem, []) := by
  simp [memoryReadWord, h, CArray.read_of_lt, word_of_lt]

/-- The validated path repeats the bound of the fast path, so nothing past it ever runs. -/
theorem memoryWriteWord_eq (mem : DezMemory) (a v : Word) :
    memoryWriteWord mem a v = .ok (if mem.Accepts a then (0, mem.put a.toNat v, [])
      else (-1, mem, [refusal a])) := by
  unfold memoryWriteWord Accepts refusal
  by_cases ha : a.toNat < 4096
  · by_cases hc : (memoryIsCodeSegment mem a && mem.codeReadonly) = true
    · simp [ha, hc]
    · simp [ha, hc, CArray.write_of_lt, put]
  · simp [ha, memoryIsValidAddress]

theorem shift_toNat (address : Word) :
    (24#32 - ((address &&& 3) <<< 3)).toNat = 8 * (3 - address.toNat % 4) := by
  have h : (address &&& 3).toNat = address.toNat % 4 := by
    rw [BitVec.toNat_and]
    exact Nat.and_two_pow_sub_one_eq_mod _ 2
  have h3 : ((address &&& 3) <<< 3 : Word).toNat = address.toNat % 4 * 8 := by
    rw [BitVec.toNat_shiftLeft, h, Nat.shiftLeft_eq]
    omega
  rw [BitVec.toNat_sub, h3, show (24#32).toNat = 24 from rfl]
  omega

theorem wordAddr_toNat (address : Word) : (address >>> 2 : Word).toNat = address.toNat / 4 := by
  rw [BitVec.toNat_ushiftRight, Nat.shiftRight_eq_div_pow]

theorem low_byte (w : Word) (k : ℕ) :
    ((w >>> k) &&& 0xFF).setWidth 8 = (w >>> k).setWidth 8 := by
  apply BitVec.eq_of_getLsbD_eq
  intro i hi
  simp only [BitVec.getLsbD_setWidth, BitVec.getLsbD_and, getLsbD_ff, hi, decide_true,
    Bool.and_true]

theorem memoryReadByte_of_lt {mem : DezMemory} {a : Word} (h : a.toNat < 16384) :
    memoryReadByte mem a = .ok (mem.byte a.toNat, []) := by
  have hw : a.toNat / 4 < 4096 := by omega
  have hge : ¬ a.toNat / 4 ≥ 4096 := by omega
  simp only [memoryReadByte, wordAddr_toNat, shift_toNat, low_byte, hge, if_false,
    CArray.read_of_lt _ hw, ok_bind, pure_eq_ok, byte, byteOf, word_of_lt hw]

/-- `memory_write_byte` replaces one byte of one word when it accepts the word's address. -/
theorem memoryWriteByte_eq {mem : DezMemory} {a : Word} (v : Byte) (h : a.toNat < 16384) :
    memoryWriteByte mem a v = .ok (if mem.Accepts (a >>> 2) then
        (0, mem.put (a.toNat / 4) (putByte (mem.word (a.toNat / 4)) (3 - a.toNat % 4) v), [])
      else (-1, mem, [.printf "Error: Write to read-only memory at address 0x%04X\n" [a]])) := by
  have hw : a.toNat / 4 < 4096 := by omega
  have hge : ¬ a.toNat / 4 ≥ 4096 := by omega
  unfold memoryWriteByte Accepts
  by_cases hc : (memoryIsCodeSegment mem (a >>> 2) && mem.codeReadonly) = true
  · simp only [wordAddr_toNat, hge, hw, hc]
    simp
  · simp only [wordAddr_toNat, shift_toNat, hge, hw, hc, if_false, CArray.read_of_lt,
      CArray.write_of_lt, ok_bind, put, dif_pos, word_of_lt, putByte]
    simp

end Dez.Machine
