import Dez.ProgramFile
import Dez.Machine.Effects

/-! `dez_vm_load_program`, and the memory image it leaves. -/
namespace Dez.Machine

/-- `fread(&x, sizeof(uint32_t), 1, file)` on a little-endian host. -/
def freadWord : List Byte → Option (Word × List Byte)
  | b0 :: b1 :: b2 :: b3 :: rest => some (wordOfBytes b0 b1 b2 b3, rest)
  | _ => none

/-- The loop over the instruction words; `false` is an early return. -/
def loadInstructions (vm : DezVm) (i : Word) : ℕ → List Byte → Except Fault (Bool × DezVm)
  | 0, _ => return (true, vm)
  | count + 1, file =>
    match freadWord file with
    | none =>
      return (false, vm.fail (.printf "Error: Could not read instruction %u from '%s'\n" [i]))
    | some (instruction, file) => do
      let (result, memory, out) ← memoryWriteWord vm.memory i instruction
      let vm := (vm.setMemory memory).print out
      if result ≠ 0 then
        return (false, vm.fail (.printf "Error: Could not write instruction %u to memory\n" [i]))
      else loadInstructions vm (i + 1#32) count file

/-- The loop over the string bytes; it stops at the end of the file or at `0x200`. -/
def loadStrings (vm : DezVm) (currentAddr : Word) : List Byte → Except Fault DezVm
  | [] => return vm
  | c :: file =>
    if currentAddr.toNat < 0x200 then do
      let (_, memory, out) ← memoryWriteByte vm.memory currentAddr c
      loadStrings ((vm.setMemory memory).print out) (currentAddr + 1#32) file
    else return vm

/-- `dez_vm_load_program`; the file is its bytes, or nothing when it cannot be opened. -/
def dezVmLoadProgram (host : Host) (vm : DezVm) : Option (List Byte) → Except Fault DezVm
  | none => return vm.fail (.printf "Error: Could not open file '%s'\n" [])
  | some file =>
    match freadWord file with
    | none =>
      let size := if file = [] then vm.programSize else host.shortRead vm.programSize file
      return { vm with programSize := size }.fail
        (.printf "Error: Could not read program size from '%s'\n" [])
    | some (size, _) =>
      let vm := { vm with programSize := size }
      if size.toNat = 0 ∨ size.toNat > 1024 then
        return vm.fail (.printf "Error: Invalid program size %u (max %u)\n" [size, 1024#32])
      else do
        let fileSize := file.length
        let vm := vm.setMemory (memorySetProtection vm.memory 0 false)
        let (done, vm) ← loadInstructions vm 0#32 size.toNat (file.drop 4)
        if !done then return vm
        else do
          let instructionDataSize := size * 4#32
          let expectedFileSize := 4#32 + instructionDataSize
          let vm ← if fileSize > expectedFileSize.toNat then
              let stringDataOffset := 4#32 + instructionDataSize
              loadStrings vm 0x100#32 (file.drop stringDataOffset.toNat)
            else pure vm
          return vm.setMemory (memorySetProtection vm.memory 0 true)

@[simp] theorem freadWord_wordBytes (w : Word) (rest : List Byte) :
    freadWord (wordBytes w ++ rest) = some (w, rest) := by
  simp [freadWord, wordBytes, wordOfBytes_byteOf]

namespace DezMemory

/-- Consecutive words stored from an address on. -/
def putWords (mem : DezMemory) (a : ℕ) : List Word → DezMemory
  | [] => mem
  | w :: ws => (mem.put a w).putWords (a + 1) ws

/-- One byte replaced, at a byte address. -/
def putByteAt (mem : DezMemory) (b : ℕ) (c : Byte) : DezMemory :=
  mem.put (b / 4) (putByte (mem.word (b / 4)) (3 - b % 4) c)

/-- Consecutive bytes stored from a byte address on. -/
def putBytes (mem : DezMemory) (b : ℕ) : List Byte → DezMemory
  | [] => mem
  | c :: cs => (mem.putByteAt b c).putBytes (b + 1) cs

/-- The code segment's protection switched. -/
def protect (mem : DezMemory) (readonly : Bool) : DezMemory := { mem with codeReadonly := readonly }

theorem codeReadonly_put (mem : DezMemory) (a : ℕ) (v : Word) :
    (mem.put a v).codeReadonly = mem.codeReadonly := by
  unfold put
  split <;> rfl

theorem codeReadonly_putWords (mem : DezMemory) (a : ℕ) (ws : List Word) :
    (mem.putWords a ws).codeReadonly = mem.codeReadonly := by
  induction ws generalizing mem a with
  | nil => rfl
  | cons w ws ih => exact (ih _ _).trans (codeReadonly_put ..)

theorem accepts_of_unprotected {mem : DezMemory} {a : Word} (h : mem.codeReadonly = false)
    (ha : a.toNat < 4096) : mem.Accepts a := ⟨ha, by simp [h]⟩

theorem word_putWords (mem : DezMemory) (a b : ℕ) (ws : List Word) (h : a + ws.length ≤ 4096) :
    (mem.putWords a ws).word b =
      if hb : a ≤ b ∧ b < a + ws.length then ws[b - a] else mem.word b := by
  induction ws generalizing mem a with
  | nil =>
    rw [dif_neg (by simp)]
    rfl
  | cons w ws ih =>
    simp only [List.length_cons] at h ⊢
    rw [putWords, ih _ _ (by omega)]
    by_cases hb : a + 1 ≤ b ∧ b < a + 1 + ws.length
    · rw [dif_pos hb, dif_pos (by omega)]
      simp [show b - a = b - (a + 1) + 1 by omega]
    · rw [dif_neg hb, word_put]
      by_cases hba : b = a
      · subst b
        rw [if_pos ⟨rfl, by omega⟩, dif_pos (by omega)]
        simp
      · rw [if_neg (fun hc => hba hc.1), dif_neg (by omega)]

theorem byte_putByteAt {mem : DezMemory} {a b : ℕ} (hb : b < 16384) (c : Byte) :
    (mem.putByteAt b c).byte a = if a = b then c else mem.byte a := by
  unfold putByteAt byte
  rw [word_put]
  by_cases hw : a / 4 = b / 4
  · rw [if_pos ⟨hw, by omega⟩, byteOf_putByte _ _ _ _ (by omega), hw]
    by_cases hab : a = b
    · simp [hab]
    · rw [if_neg hab, if_neg (by omega)]
  · rw [if_neg (fun h => hw h.1), if_neg (fun h => hw (by rw [h]))]

theorem byte_putBytes (mem : DezMemory) (a b : ℕ) (cs : List Byte) (h : b + cs.length ≤ 16384) :
    (mem.putBytes b cs).byte a =
      if ha : b ≤ a ∧ a < b + cs.length then cs[a - b] else mem.byte a := by
  induction cs generalizing mem b with
  | nil =>
    rw [dif_neg (by simp)]
    rfl
  | cons c cs ih =>
    simp only [List.length_cons] at h ⊢
    rw [putBytes, ih _ _ (by omega)]
    by_cases ha : b + 1 ≤ a ∧ a < b + 1 + cs.length
    · rw [dif_pos ha, dif_pos (by omega)]
      simp [show a - b = a - (b + 1) + 1 by omega]
    · rw [dif_neg ha, byte_putByteAt (by omega)]
      by_cases hab : a = b
      · subst b
        rw [if_pos rfl, dif_pos (by omega)]
        simp
      · rw [if_neg hab, dif_neg (by omega)]

end DezMemory

open DezMemory

theorem loadInstructions_eq (ws : List Word) (rest : List Byte) {vm : DezVm} {i : Word}
    (hr : vm.memory.codeReadonly = false) (hi : i.toNat + ws.length ≤ 4096) :
    loadInstructions vm i ws.length (ws.flatMap wordBytes ++ rest) =
      .ok (true, vm.setMemory (vm.memory.putWords i.toNat ws)) := by
  induction ws generalizing vm i with
  | nil => rfl
  | cons w ws ih =>
    simp only [List.length_cons] at hi
    have ha : vm.memory.Accepts i := accepts_of_unprotected hr (by omega)
    have hnext : (i + 1#32).toNat = i.toNat + 1 := by bv_omega
    simp only [List.length_cons, loadInstructions, List.flatMap_cons, List.append_assoc,
      freadWord_wordBytes, memoryWriteWord_store, store, refused, ha, if_true, ok_bind,
      DezVm.print_nil, ne_eq, not_true_eq_false, if_false]
    rw [ih ((codeReadonly_put ..).trans hr) (by omega), hnext]
    rfl

theorem loadStrings_eq (cs : List Byte) {vm : DezVm} {a : Word}
    (hr : vm.memory.codeReadonly = false) (ha : a.toNat ≤ 0x200) :
    loadStrings vm a cs =
      .ok (vm.setMemory (vm.memory.putBytes a.toNat (cs.take (0x200 - a.toNat)))) := by
  induction cs generalizing vm a with
  | nil =>
    rw [List.take_nil]
    rfl
  | cons c cs ih =>
    unfold loadStrings
    by_cases hlt : a.toNat < 0x200
    · have hacc : vm.memory.Accepts (a >>> 2) :=
        accepts_of_unprotected hr (by rw [wordAddr_toNat]; omega)
      have hnext : (a + 1#32).toNat = a.toNat + 1 := by bv_omega
      rw [if_pos hlt, memoryWriteByte_eq c (by omega), if_pos hacc]
      simp only [ok_bind, DezVm.print_nil]
      rw [ih ((codeReadonly_put ..).trans hr) (by omega), hnext,
        show 0x200 - a.toNat = 0x200 - (a.toNat + 1) + 1 by omega, List.take_succ_cons]
      rfl
    · rw [if_neg hlt, show 0x200 - a.toNat = 0 by omega]
      rfl

/-- The memory a well-formed file leaves: its words from 0, then its string bytes from `0x100`,
as far as the window to `0x200` reaches. -/
def loadedMemory (mem : DezMemory) (ws : List Word) (strings : List Byte) : DezMemory :=
  (((mem.protect false).putWords 0 ws).putBytes 0x100 (strings.take 256)).protect true

theorem dezVmLoadProgram_programFile (host : Host) (vm : DezVm) {ws : List Word}
    (strings : List Byte) (h1 : 1 ≤ ws.length) (h2 : ws.length ≤ 1024) :
    dezVmLoadProgram host vm (some (programFile ws strings)) =
      .ok ({ vm with programSize := BitVec.ofNat 32 ws.length }.setMemory
        (loadedMemory vm.memory ws strings)) := by
  have hsize : (BitVec.ofNat 32 ws.length).toNat = ws.length := by
    rw [BitVec.toNat_ofNat]
    omega
  have hbad : ¬ (ws.length = 0 ∨ ws.length > 1024) := by omega
  have hexp : (4#32 + BitVec.ofNat 32 ws.length * 4#32).toNat = 4 + 4 * ws.length := by
    rw [BitVec.toNat_add, BitVec.toNat_mul, hsize]
    simp
    omega
  have hdrop4 : (programFile ws strings).drop 4 = ws.flatMap wordBytes ++ strings := by
    simp [programFile, wordBytes]
  have hdrop : (programFile ws strings).drop (4 + 4 * ws.length) = strings := by
    rw [← List.drop_drop, hdrop4, ← length_flatMap_wordBytes, List.drop_left]
  have hlen : (programFile ws strings).length = 4 + 4 * ws.length + strings.length := by
    simp only [programFile, List.length_append, length_flatMap_wordBytes, wordBytes,
      List.length_cons, List.length_nil]
  have hread : freadWord (programFile ws strings) =
      some (BitVec.ofNat 32 ws.length, ws.flatMap wordBytes ++ strings) := by
    simp [programFile, List.append_assoc]
  simp only [dezVmLoadProgram, hread, hsize, hbad, if_false, hdrop4, hexp, hdrop, hlen]
  rw [loadInstructions_eq ws strings rfl (by simp; omega)]
  simp only [ok_bind, Bool.not_true, Bool.false_eq_true, if_false]
  by_cases hs : strings = []
  · subst strings
    rw [if_neg (by simp)]
    rfl
  · have hpos : 0 < strings.length := List.length_pos_of_ne_nil hs
    rw [if_pos (by omega), loadStrings_eq strings (codeReadonly_putWords ..) (by decide)]
    rfl

/-- Enough bytes for `n` words are `n` words and a rest. -/
theorem exists_words (n : ℕ) (file : List Byte) (h : 4 * n ≤ file.length) :
    ∃ (ws : List Word) (rest : List Byte), ws.length = n ∧ file = ws.flatMap wordBytes ++ rest := by
  induction n generalizing file with
  | zero => exact ⟨[], file, rfl, rfl⟩
  | succ n ih =>
    match file, h with
    | b0 :: b1 :: b2 :: b3 :: file, h =>
      obtain ⟨ws, rest, hn, rfl⟩ := ih file (by simp only [List.length_cons] at h; omega)
      refine ⟨wordOfBytes b0 b1 b2 b3 :: ws, rest, by simp [hn], ?_⟩
      simp [wordBytes, byteOf_wordOfBytes]

theorem freadWord_eq_none {file : List Byte} : freadWord file = none ↔ file.length < 4 := by
  unfold freadWord
  split
  · simp
  · rename_i h
    simp only [true_iff]
    match file, h with
    | [], _ | [_], _ | [_, _], _ | [_, _, _], _ => simp
    | b0 :: b1 :: b2 :: b3 :: rest, h => exact (h b0 b1 b2 b3 rest rfl).elim

/-- A file that ends inside the instructions stops the loop with an error, and nothing it does
touches the protection. -/
theorem loadInstructions_short (count : ℕ) {file : List Byte} (vm : DezVm) (i : Word)
    (hr : vm.memory.codeReadonly = false) (hi : i.toNat + count ≤ 4096)
    (h : file.length < 4 * count) :
    ∃ vm', loadInstructions vm i count file = .ok (false, vm') ∧
      vm'.cpu = { vm.cpu with state := .error } ∧ vm'.memory.codeReadonly = false := by
  induction count generalizing file vm i with
  | zero => omega
  | succ count ih =>
    unfold loadInstructions
    by_cases hf : file.length < 4
    · rw [freadWord_eq_none.mpr hf]
      exact ⟨_, rfl, rfl, hr⟩
    · obtain ⟨ws, rest, hn, rfl⟩ := exists_words 1 file (by omega)
      obtain ⟨w, rfl⟩ := List.length_eq_one_iff.mp hn
      have ha : vm.memory.Accepts i := accepts_of_unprotected hr (by omega)
      have hnext : (i + 1#32).toNat = i.toNat + 1 := by bv_omega
      simp only [List.flatMap_cons, List.flatMap_nil, List.append_nil, freadWord_wordBytes,
        memoryWriteWord_store, store, refused, ha, if_true, ok_bind, DezVm.print_nil, ne_eq,
        not_true_eq_false, if_false]
      simp only [List.flatMap_cons, List.flatMap_nil, List.append_nil, List.length_append,
        wordBytes, List.length_cons, List.length_nil] at h
      exact ih (vm.setMemory _) _ ((codeReadonly_put ..).trans hr) (by omega) (by omega)

variable {host : Host} {vm : DezVm} {size : Word} {file body : List Byte}

/-- A file too short for its header: `program_size` is whatever the short read left. -/
theorem load_headerless (h : freadWord file = none) :
    dezVmLoadProgram host vm (some file) =
      .ok ({ vm with programSize :=
          if file = [] then vm.programSize else host.shortRead vm.programSize file }.fail
        (.printf "Error: Could not read program size from '%s'\n" [])) := by
  simp only [dezVmLoadProgram, h]
  rfl

/-- The header is stored before it is checked. -/
theorem load_badSize (hsize : size.toNat = 0 ∨ size.toNat > 1024) :
    dezVmLoadProgram host vm (some (wordBytes size ++ body)) =
      .ok ({ vm with programSize := size }.fail
        (.printf "Error: Invalid program size %u (max %u)\n" [size, 1024#32])) := by
  simp only [dezVmLoadProgram, freadWord_wordBytes, hsize, if_true]
  rfl

/-- A file that ends inside its instructions: the early return skips the protection. -/
theorem load_truncated (host : Host) (vm : DezVm)
    (hsize : ¬ (size.toNat = 0 ∨ size.toNat > 1024))
    (hlen : body.length < 4 * size.toNat) :
    ∃ vm', dezVmLoadProgram host vm (some (wordBytes size ++ body)) = .ok vm' ∧
      vm'.cpu = { vm.cpu with state := .error } ∧ vm'.memory.codeReadonly = false := by
  have hshort := loadInstructions_short size.toNat
    ({ vm with programSize := size }.setMemory (memorySetProtection vm.memory 0 false))
    0#32 rfl (by simp; omega) hlen
  obtain ⟨vm', hload, hvm'⟩ := hshort
  refine ⟨vm', ?_, hvm'⟩
  have hdrop : (wordBytes size ++ body).drop 4 = body := by simp [wordBytes]
  simp only [dezVmLoadProgram, freadWord_wordBytes, hsize, if_false, hdrop, hload, ok_bind]
  rfl

/-- A file with its whole header starts with the bytes of a word. -/
theorem exists_header (file : List Byte) (h : 4 ≤ file.length) :
    ∃ size body, file = wordBytes size ++ body := by
  obtain ⟨hd, body, hn, rfl⟩ := exists_words 1 file (by omega)
  obtain ⟨size, rfl⟩ := List.length_eq_one_iff.mp hn
  exact ⟨size, body, by simp⟩

theorem exists_programFile (hsize : ¬ (size.toNat = 0 ∨ size.toNat > 1024))
    (hlen : 4 * size.toNat ≤ body.length) :
    ∃ ws strings, wordBytes size ++ body = programFile ws strings ∧ 1 ≤ ws.length ∧
      ws.length ≤ 1024 := by
  obtain ⟨ws, strings, hws, rfl⟩ := exists_words size.toNat body hlen
  refine ⟨ws, strings, ?_, by omega, by omega⟩
  simp [programFile, hws]

/-- Every call of the loader returns: with an error, or with a well-formed file loaded. -/
theorem load_cases (host : Host) (vm : DezVm) (file : Option (List Byte)) :
    (∃ vm', dezVmLoadProgram host vm file = .ok vm' ∧ vm'.cpu = { vm.cpu with state := .error }) ∨
    ∃ ws strings, file = some (programFile ws strings) ∧ 1 ≤ ws.length ∧ ws.length ≤ 1024 := by
  cases file with
  | none => exact .inl ⟨_, rfl, rfl⟩
  | some file =>
    by_cases hf : file.length < 4
    · exact .inl ⟨_, load_headerless (freadWord_eq_none.mpr hf), rfl⟩
    · obtain ⟨size, body, rfl⟩ := exists_header file (by omega)
      by_cases hsize : size.toNat = 0 ∨ size.toNat > 1024
      · exact .inl ⟨_, load_badSize hsize, rfl⟩
      · by_cases hlen : body.length < 4 * size.toNat
        · obtain ⟨vm', hload, hcpu, -⟩ := load_truncated host vm hsize hlen
          exact .inl ⟨vm', hload, hcpu⟩
        · obtain ⟨ws, strings, hfile, h⟩ := exists_programFile hsize (Nat.le_of_not_lt hlen)
          exact .inr ⟨ws, strings, by rw [hfile], h⟩

end Dez.Machine
