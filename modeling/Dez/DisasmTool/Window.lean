import Dez.DisasmTool.Listing

/-! Which instructions the listing of a binary file shows, and where. -/
namespace Dez.DisasmTool
open Assembler Disassembler Machine

/-- The number of instructions that the options ask for. -/
def requested (options : DisasmOptions) (totalCount : ℕ) : ℕ :=
  if options.count = 0#32 then totalCount else options.count.toNat

/-- The index behind the last one that the options ask for, in numbers that do not wrap. -/
def windowEnd (options : DisasmOptions) (totalCount : ℕ) : ℕ :=
  min totalCount (options.startAddr.toNat / 4 + requested options totalCount)

/-- The listing shows each instruction of the window once, in order and at four times its index,
and its statistics count the lines. -/
structure ExactListing (options : DisasmOptions) (instructions : List Word) (listing : Listing) :
    Prop where
  lines : listing.lines.map (fun line => (some line.instruction, line.address.toNat)) =
    (List.range' (options.startAddr.toNat / 4)
      (windowEnd options instructions.length - options.startAddr.toNat / 4)).map
        fun i => (instructions[i]?, 4 * i)
  statistics : ∀ s, listing.statistics = some s →
    s.totalInstructions.toNat = listing.lines.length

/-- The line of an index that is in the array. -/
def lineAt (instructions : List Word) (startAddr startIdx : Word) (i : ℕ) : Line :=
  ⟨instructions.getD i 0, startAddr + (BitVec.ofNat 32 i - startIdx) * 4#32,
    BitVec.ofNat 32 i - startIdx + 1#32⟩

variable {malloc : ℕ → Bool} {asmFile : List Byte → Option (List Byte)} {options : DisasmOptions}
  {file : Option (List Byte)} {stderr : List Printed} {instructions : List Word}
  {startAddr startIdx endIdx count totalCount : Word} {fuel : ℕ}

theorem listLines_eq (startAddr startIdx : Word) {i : Word}
    (hend : endIdx.toNat ≤ instructions.length) (hfuel : fuel = endIdx.toNat - i.toNat) :
    listLines instructions startAddr startIdx endIdx fuel i =
      .ok ((List.range' i.toNat fuel).map (lineAt instructions startAddr startIdx)) := by
  induction fuel generalizing i with
  | zero => rfl
  | succ fuel ih =>
    have hlt : i.toNat < endIdx.toNat := by omega
    have hnext : (i + 1#32).toNat = i.toNat + 1 := by bv_omega
    have hget : instructions[i.toNat]? = some (instructions.getD i.toNat 0) := by
      rw [List.getD, List.getElem?_eq_getElem (by omega)]
      rfl
    have hrest := @ih (i + 1#32) (by omega)
    rw [listLines, if_pos hlt, hget]
    simp only [hrest, ok_bind, hnext, List.range'_succ, List.map_cons, lineAt, BitVec.ofNat_toNat,
      BitVec.setWidth_eq]
    rfl

theorem length_readWords (n : ℕ) (file : List Byte) : (readWords n file).length ≤ n := by
  induction n generalizing file with
  | zero => exact Nat.le_refl _
  | succ n ih =>
    unfold readWords
    split
    · exact Nat.succ_le_succ (ih _)
    · exact Nat.zero_le _

/-- The count is a 32-bit number, so the array it is for is no longer. -/
theorem length_instructions (h : readBinaryFile malloc options.filename file =
    (stderr, some instructions)) : instructions.length < 2 ^ 32 := by
  cases file with
  | none => cases h
  | some file =>
    simp only [readBinaryFile] at h
    split at h
    · cases h
    · split at h
      · cases h
      · cases h
        exact Nat.lt_of_le_of_lt (length_readWords _ _) (BitVec.isLt _)

/-- What the window, the loop and the statistics make of an array that was read. -/
theorem disassembleBinaryFile_eq (hread : readBinaryFile malloc options.filename file =
      (stderr, some instructions))
    (hwindow : window options.startAddr options.count (BitVec.ofNat 32 instructions.length) =
      (startIdx, endIdx, count))
    (hstart : startIdx.toNat < instructions.length) (hend : endIdx.toNat ≤ instructions.length) :
    ∃ listing, disassembleBinaryFile malloc asmFile options file = .ok listing ∧
      listing.lines = (List.range' startIdx.toNat (endIdx.toNat - startIdx.toNat)).map
        (lineAt instructions options.startAddr startIdx) ∧
      ∀ s, listing.statistics = some s → s.totalInstructions = count := by
  have htotal : (BitVec.ofNat 32 instructions.length).toNat = instructions.length := by
    rw [BitVec.toNat_ofNat, Nat.mod_eq_of_lt (length_instructions hread)]
  have hlines := @listLines_eq _ _ _ options.startAddr startIdx startIdx hend rfl
  simp only [disassembleBinaryFile, hread, hwindow, htotal, hlines, ok_bind]
  rw [if_neg (by omega)]
  refine ⟨_, rfl, rfl, ?_⟩
  intro s hs
  simp only at hs
  split at hs
  · cases hs
    rfl
  · cases hs

theorem startIdx_toNat (startAddr : Word) : (startAddr / 4#32).toNat = startAddr.toNat / 4 := by
  rw [BitVec.toNat_udiv]
  rfl

theorem requested_toNat {total : ℕ} (htotal : total < 2 ^ 32) :
    (if options.count = 0#32 then BitVec.ofNat 32 total else options.count).toNat =
      requested options total := by
  unfold requested
  split
  · rw [BitVec.toNat_ofNat, Nat.mod_eq_of_lt htotal]
  · rfl

/-- Without a carry the clamp finds the end of the window. -/
theorem window_of_fits {total : ℕ} (htotal : total < 2 ^ 32)
    (hstart : options.startAddr.toNat / 4 < total)
    (hfit : options.startAddr.toNat / 4 + requested options total < 2 ^ 32) :
    ∃ endIdx count, window options.startAddr options.count (BitVec.ofNat 32 total) =
        (options.startAddr / 4#32, endIdx, count) ∧
      endIdx.toNat = windowEnd options total ∧
      count.toNat = windowEnd options total - options.startAddr.toNat / 4 := by
  have hcount := @requested_toNat options total htotal
  have hidx := startIdx_toNat options.startAddr
  have hword : (BitVec.ofNat 32 total).toNat = total := by
    rw [BitVec.toNat_ofNat, Nat.mod_eq_of_lt htotal]
  have hend : windowEnd options total =
    min total (options.startAddr.toNat / 4 + requested options total) := rfl
  unfold window
  generalize (if options.count = 0#32 then BitVec.ofNat 32 total else options.count) = c at *
  dsimp only
  by_cases hclamp : (options.startAddr / 4#32 + c).toNat > (BitVec.ofNat 32 total).toNat
  · rw [if_pos hclamp]
    rw [BitVec.toNat_add, hidx, hcount, Nat.mod_eq_of_lt hfit, hword] at hclamp
    refine ⟨_, _, rfl, ?_, ?_⟩
    · omega
    · rw [BitVec.toNat_sub_of_le, hword, hidx]
      · omega
      · rw [BitVec.le_def, hword, hidx]
        omega
  · rw [if_neg hclamp]
    rw [BitVec.toNat_add, hidx, hcount, Nat.mod_eq_of_lt hfit, hword] at hclamp
    refine ⟨_, _, rfl, ?_, ?_⟩
    · rw [BitVec.toNat_add, hidx, hcount, Nat.mod_eq_of_lt hfit]
      omega
    · omega

/-- A carry leaves an end before the start. -/
theorem window_of_carry {total : ℕ} (htotal : total < 2 ^ 32)
    (hstart : options.startAddr.toNat / 4 < total)
    (hcarry : 2 ^ 32 ≤ options.startAddr.toNat / 4 + requested options total) :
    ∃ endIdx count, window options.startAddr options.count (BitVec.ofNat 32 total) =
        (options.startAddr / 4#32, endIdx, count) ∧
      endIdx.toNat ≤ options.startAddr.toNat / 4 := by
  have hcount := @requested_toNat options total htotal
  have hidx := startIdx_toNat options.startAddr
  have hword : (BitVec.ofNat 32 total).toNat = total := by
    rw [BitVec.toNat_ofNat, Nat.mod_eq_of_lt htotal]
  unfold window
  generalize (if options.count = 0#32 then BitVec.ofNat 32 total else options.count) = c at *
  have hlt := c.isLt
  have hsum : (options.startAddr / 4#32 + c).toNat ≤ options.startAddr.toNat / 4 := by
    rw [BitVec.toNat_add, hidx, hcount]
    omega
  dsimp only
  rw [if_neg (by omega)]
  exact ⟨_, _, rfl, hsum⟩

/-- The address shown for an index: the start address keeps its low bits. -/
theorem lineAt_address {i : ℕ} (hi : options.startAddr.toNat / 4 ≤ i) (hlt : i < 2 ^ 32) :
    (lineAt instructions options.startAddr (options.startAddr / 4#32) i).address.toNat =
      (4 * i + options.startAddr.toNat % 4) % 2 ^ 32 := by
  have hidx := startIdx_toNat options.startAddr
  have hofNat : (BitVec.ofNat 32 i).toNat = i := by
    rw [BitVec.toNat_ofNat, Nat.mod_eq_of_lt hlt]
  have hsub : (BitVec.ofNat 32 i - options.startAddr / 4#32).toNat =
      i - options.startAddr.toNat / 4 := by
    rw [BitVec.toNat_sub_of_le, hofNat, hidx]
    rw [BitVec.le_def, hofNat, hidx]
    exact hi
  simp only [lineAt, BitVec.toNat_add, BitVec.toNat_mul, hsub, BitVec.toNat_ofNat]
  omega

theorem requested_pos {total : ℕ} (h : 0 < total) : 0 < requested options total := by
  unfold requested
  split
  · exact h
  · rename_i hcount
    have hne : options.count.toNat ≠ 0 := fun h0 => hcount (BitVec.eq_of_toNat_eq h0)
    omega

/-- The lines that the window asks for, as the claimed listing has them. -/
theorem lines_exact_iff (hlen : instructions.length < 2 ^ 32)
    (hstart : options.startAddr.toNat / 4 < windowEnd options instructions.length) :
    ((List.range' (options.startAddr.toNat / 4)
          (windowEnd options instructions.length - options.startAddr.toNat / 4)).map
        (lineAt instructions options.startAddr (options.startAddr / 4#32))).map
          (fun line => (some line.instruction, line.address.toNat)) =
      (List.range' (options.startAddr.toNat / 4)
        (windowEnd options instructions.length - options.startAddr.toNat / 4)).map
          (fun i => (instructions[i]?, 4 * i)) ↔
    options.startAddr.toNat % 4 = 0 ∧ windowEnd options instructions.length ≤ 2 ^ 30 := by
  have hle : windowEnd options instructions.length ≤ instructions.length := Nat.min_le_left _ _
  have hline : ∀ i, options.startAddr.toNat / 4 ≤ i → i < instructions.length →
      (some (lineAt instructions options.startAddr (options.startAddr / 4#32) i).instruction,
        (lineAt instructions options.startAddr (options.startAddr / 4#32) i).address.toNat) =
      (instructions[i]?, (4 * i + options.startAddr.toNat % 4) % 2 ^ 32) := by
    intro i hi hlt
    rw [lineAt_address hi (by omega)]
    simp only [lineAt, List.getD, List.getElem?_eq_getElem hlt, Option.getD_some]
  rw [List.map_map, List.map_inj_left]
  simp only [List.mem_range'_1, Function.comp_apply]
  constructor
  · intro h
    have hfirst := h (options.startAddr.toNat / 4) (by omega)
    have hlast := h (windowEnd options instructions.length - 1) (by omega)
    rw [hline _ (by omega) (by omega), Prod.mk.injEq] at hfirst hlast
    omega
  · rintro ⟨halign, hbound⟩ i hi
    rw [hline i hi.1 (by omega), halign, Nat.add_zero, Nat.mod_eq_of_lt (by omega)]

/-- A window whose end carries out of 32 bits lists nothing. -/
theorem not_exact_of_carry (hread : readBinaryFile malloc options.filename file =
      (stderr, some instructions))
    (hstart : options.startAddr.toNat / 4 < instructions.length)
    (hcarry : 2 ^ 32 ≤ options.startAddr.toNat / 4 + requested options instructions.length) :
    ¬ ∃ listing, disassembleBinaryFile malloc asmFile options file = .ok listing ∧
      ExactListing options instructions listing := by
  rintro ⟨listing', hlisting', h⟩
  have hidx := startIdx_toNat options.startAddr
  have hpos := @requested_pos options instructions.length (by omega)
  obtain ⟨endIdx, count, hwindow, hendIdx⟩ :=
    window_of_carry (length_instructions hread) hstart hcarry
  obtain ⟨listing, hlisting, hlines, -⟩ :=
    @disassembleBinaryFile_eq malloc asmFile _ _ _ _ _ _ _ hread hwindow (by omega) (by omega)
  cases hlisting.symm.trans hlisting'
  have hnone : listing'.lines = [] := by
    rw [hlines, show endIdx.toNat - (options.startAddr / 4#32).toNat = 0 by omega]
    rfl
  have hlength := congrArg List.length h.lines
  rw [hnone, List.length_map, List.length_map, List.length_range', List.length_nil] at hlength
  unfold windowEnd at hlength
  omega

/-- The window is exact if and only if the start address is a multiple of four, the end does not
carry out of 32 bits, and the last address shown is a 32-bit number. -/
theorem exactListing_iff (hread : readBinaryFile malloc options.filename file =
      (stderr, some instructions))
    (hstart : options.startAddr.toNat / 4 < instructions.length) :
    (∃ listing, disassembleBinaryFile malloc asmFile options file = .ok listing ∧
      ExactListing options instructions listing) ↔
    options.startAddr.toNat % 4 = 0 ∧
      options.startAddr.toNat / 4 + requested options instructions.length < 2 ^ 32 ∧
      windowEnd options instructions.length ≤ 2 ^ 30 := by
  have hlen := length_instructions hread
  have hidx := startIdx_toNat options.startAddr
  have hpos := @requested_pos options instructions.length (by omega)
  have hend : options.startAddr.toNat / 4 < windowEnd options instructions.length := by
    unfold windowEnd
    omega
  have hle : windowEnd options instructions.length ≤ instructions.length := Nat.min_le_left _ _
  by_cases hfit : options.startAddr.toNat / 4 + requested options instructions.length < 2 ^ 32
  · obtain ⟨endIdx, count, hwindow, hendIdx, hcount⟩ := window_of_fits hlen hstart hfit
    obtain ⟨listing, hlisting, hlines, hstatistics⟩ :=
      @disassembleBinaryFile_eq malloc asmFile _ _ _ _ _ _ _ hread hwindow (by omega) (by omega)
    rw [hidx, hendIdx] at hlines
    have hexact := lines_exact_iff hlen hend
    rw [← hlines] at hexact
    constructor
    · rintro ⟨listing', hlisting', h⟩
      cases hlisting.symm.trans hlisting'
      obtain ⟨halign, hbound⟩ := hexact.mp h.lines
      exact ⟨halign, hfit, hbound⟩
    · rintro ⟨halign, -, hbound⟩
      refine ⟨listing, hlisting, hexact.mpr ⟨halign, hbound⟩, ?_⟩
      intro s hs
      rw [hstatistics s hs, hcount, hlines, List.length_map, List.length_range']
  · exact iff_of_false (not_exact_of_carry hread hstart (by omega)) (fun h => hfit h.2.1)

/-- Two words, and the window from the second on. -/
theorem exactListing_iff_second :
    ∃ listing, disassembleBinaryFile (fun _ => true) (fun _ => none)
        { defaultOptions [] with startAddr := 4#32 } (some (wordBytes 1#32 ++ wordBytes 2#32)) =
          .ok listing ∧
      ExactListing { defaultOptions [] with startAddr := 4#32 } [1#32, 2#32] listing :=
  (@exactListing_iff (fun _ => true) (fun _ => none) { defaultOptions [] with startAddr := 4#32 }
    (some (wordBytes 1#32 ++ wordBytes 2#32)) [] [1#32, 2#32] rfl (by decide)).mpr (by decide)

/-- The same file with the largest count: the end of the window wraps to its beginning. -/
theorem window_wraps : ¬ ∀ (malloc : ℕ → Bool) (asmFile : List Byte → Option (List Byte))
    (options : DisasmOptions) (file : Option (List Byte)) (stderr : List Printed)
    (instructions : List Word),
    readBinaryFile malloc options.filename file = (stderr, some instructions) →
    options.startAddr.toNat / 4 < instructions.length →
    ∃ listing, disassembleBinaryFile malloc asmFile options file = .ok listing ∧
      ExactListing options instructions listing := by
  intro h
  let options := { defaultOptions [] with startAddr := 4#32, count := 0xFFFFFFFF#32 }
  have hread : readBinaryFile (fun _ => true) options.filename
      (some (wordBytes 1#32 ++ wordBytes 2#32)) = ([], some [1#32, 2#32]) := rfl
  exact not_exact_of_carry hread (by decide) (by decide)
    (h (fun _ => true) (fun _ => none) options _ _ _ hread (by decide))

end Dez.DisasmTool
