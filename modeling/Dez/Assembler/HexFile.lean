import Dez.Disassembler
import Dez.ProgramFile
import Dez.Assembler.Output

/-! The hex files of `write_hex_file`, read back, against the binary files. -/
namespace Dez.Assembler
open Disassembler

variable {capacity : ℕ} {w : Word} {ws : List Word} {file : List Byte}

theorem hexadecimal_succ (places : ℕ) (w : Word) :
    hexadecimal (places + 1) w =
      (bytes "0123456789ABCDEF").getD ((w >>> (4 * places)).toNat % 16) 0 ::
        hexadecimal places w := by
  unfold hexadecimal
  rw [List.range_succ_eq_map, List.map_cons, List.map_map]
  refine congrArg₂ List.cons rfl (List.map_congr_left fun i _ => ?_)
  have hplace : places + 1 - 1 - (i + 1) = places - 1 - i := by omega
  simp only [Function.comp, Nat.succ_eq_add_one, hplace]

theorem digitValue_hex : ∀ d < 16, digitValue ((bytes "0123456789ABCDEF").getD d 0) = d := by
  decide

/-- The digits of a word read as the word, behind the number read so far. -/
theorem foldl_hexadecimal (places n : ℕ) (w : Word) :
    (hexadecimal places w).foldl (fun n c => n * 16 + digitValue c) n =
      n * 16 ^ places + w.toNat % 16 ^ places := by
  induction places generalizing n with
  | zero => simp [hexadecimal, Nat.mod_one]
  | succ places ih =>
    have hdigit : (w >>> (4 * places)).toNat = w.toNat / 16 ^ places := by
      rw [BitVec.toNat_ushiftRight, Nat.shiftRight_eq_div_pow, Nat.pow_mul]
    rw [hexadecimal_succ, List.foldl_cons, digitValue_hex _ (Nat.mod_lt _ (by decide)), ih, hdigit,
      Nat.mod_pow_succ]
    ring

/-- Eight digits read as the word they were written for. -/
theorem strtoul_hexadecimal (w : Word) : strtoul (hexadecimal 8 w) 16 = w := by
  have hlt := w.isLt
  rw [strtoul, foldl_hexadecimal, Nat.zero_mul, Nat.zero_add, Nat.mod_eq_of_lt (by omega),
    Nat.min_eq_left (by omega), BitVec.ofNat_toNat, BitVec.setWidth_eq]

theorem hexLine_eq (w : Word) : hexLine w = hexadecimal 8 w ++ [newline] := rfl

theorem newline_notMem_hexadecimal (places : ℕ) (w : Word) : newline ∉ hexadecimal places w := by
  have hdigits : ∀ d < 16, (bytes "0123456789ABCDEF").getD d 0 ≠ newline := by decide
  unfold hexadecimal
  intro h
  obtain ⟨i, -, hdigit⟩ := List.mem_map.mp h
  exact hdigits _ (Nat.mod_lt _ (by decide)) hdigit

/-- The words that a `v2.0 raw` file holds: a number on each line behind the first. -/
def hexFileWords (file : List Byte) : Option (List Word) :=
  match file.splitOn newline with
  | header :: lines =>
    if header = bytes "v2.0 raw" then some (lines.dropLast.map fun line => strtoul line 16)
    else none
  | [] => none

theorem splitOn_hexLines (ws : List Word) :
    (ws.flatMap hexLine).splitOn newline = ws.map (hexadecimal 8) ++ [[]] := by
  induction ws with
  | nil => rfl
  | cons w ws ih =>
    rw [List.flatMap_cons, hexLine_eq, List.append_assoc, List.singleton_append,
      List.splitOn_append_cons_self_of_not_mem (newline_notMem_hexadecimal 8 w), ih]
    rfl

/-- What is written is read back. -/
theorem hexFileWords_written (ws : List Word) :
    hexFileWords (bytes "v2.0 raw\n" ++ ws.flatMap hexLine) = some ws := by
  have hheader : newline ∉ bytes "v2.0 raw" := by decide
  have hsplit : (bytes "v2.0 raw\n" ++ ws.flatMap hexLine).splitOn newline =
      bytes "v2.0 raw" :: (ws.map (hexadecimal 8) ++ [[]]) := by
    have hfirst : bytes "v2.0 raw\n" ++ ws.flatMap hexLine =
        bytes "v2.0 raw" ++ newline :: ws.flatMap hexLine := rfl
    rw [hfirst, List.splitOn_append_cons_self_of_not_mem hheader, splitOn_hexLines]
  have hread : ws.map ((fun line => strtoul line 16) ∘ hexadecimal 8) = ws := by
    refine (List.map_congr_left fun w _ => ?_).trans ws.map_id
    exact strtoul_hexadecimal w
  simp only [hexFileWords, hsplit, if_true, List.dropLast_concat, List.map_map, hread]

/-- The two writers write the same words, or fail alike. -/
theorem written_agree (data : CArray Word capacity) (count : ℕ) (table : SymbolTable) :
    (∃ ws, hexFileWords (bytes "v2.0 raw\n" ++ ws.flatMap hexLine) = some ws ∧
      writeHexFile data count = .ok (bytes "v2.0 raw\n" ++ ws.flatMap hexLine) ∧
      writeBinaryFileWithStrings data count table =
        .ok (programFile ws (stringData table.symbols))) ∨
    ∃ fault, writeHexFile data count = .error fault ∧
      writeBinaryFileWithStrings data count table = .error fault := by
  cases hread : data.readFront count with
  | ok ws =>
    obtain ⟨hcount, rfl⟩ := CArray.readFront_ok hread
    refine .inl ⟨data.front count, hexFileWords_written _, ?_, ?_⟩
    · simp only [writeHexFile, hread]
      rfl
    · simp only [writeBinaryFileWithStrings, hread, programFile, CArray.length_front data hcount]
      rfl
  | error fault =>
    refine .inr ⟨fault, ?_, ?_⟩
    · simp only [writeHexFile, hread]
      rfl
    · simp only [writeBinaryFileWithStrings, hread]
      rfl

/-- The assembler succeeds and writes this file. -/
def Writes (stale : ℕ → Word → ℕ → Word) (assembler : DezAssembler capacity)
    (inputFile outputFile : List Byte) (contents : Option (List Byte)) (writable : Bool)
    (file : List Byte) : Prop :=
  ∃ assembler', assemblerAssembleFile stale assembler inputFile outputFile contents writable =
    .ok (true, some file, assembler')

section writes

variable {stale : ℕ → Word → ℕ → Word} {assembler : DezAssembler capacity}
  {inputFile outputFile : List Byte} {contents : Option (List Byte)} {writable : Bool}

/-- What a file is written from. -/
theorem writes_iff : Writes stale assembler inputFile outputFile contents writable file ↔
    ∃ input assembled, contents = some input ∧ writable = true ∧
      assemblerAssembleString stale (assembler.note [.assembling inputFile]) input =
        .ok (true, assembled) ∧
      (if isHexFile outputFile then writeHexFile assembled.outputBuffer assembled.outputSize
        else writeBinaryFileWithStrings assembled.outputBuffer assembled.outputSize
          assembled.symbolTable) = .ok file := by
  unfold Writes assemblerAssembleFile
  constructor
  · rintro ⟨assembler', h⟩
    cases contents with
    | none => cases h
    | some input =>
      obtain ⟨⟨success, assembled⟩, hassemble, h⟩ := bind_eq_ok h
      cases success with
      | false => cases h
      | true =>
        cases writable with
        | false => cases h
        | true =>
          refine ⟨input, assembled, rfl, rfl, hassemble, ?_⟩
          simp only [Bool.not_true, Bool.false_eq_true, if_false] at h
          by_cases hx : isHexFile outputFile = true
          · rw [if_pos hx] at h ⊢
            obtain ⟨written, hwritten, h⟩ := bind_eq_ok h
            cases h
            exact hwritten
          · rw [if_neg hx] at h ⊢
            obtain ⟨written, hwritten, h⟩ := bind_eq_ok h
            cases h
            exact hwritten
  · rintro ⟨input, assembled, rfl, rfl, hassemble, hwritten⟩
    refine ⟨assembled.print [.assembled assembled.outputSize outputFile], ?_⟩
    by_cases hx : isHexFile outputFile = true
    · rw [if_pos hx] at hwritten
      simp only [hassemble, ok_bind, hx, if_true, hwritten]
      rfl
    · rw [if_neg hx] at hwritten
      simp only [hassemble, ok_bind, hx, Bool.false_eq_true, if_false, hwritten]
      rfl

/-- For every source text the two output formats succeed alike, and the words of the hex file are
the words of the binary file. -/
theorem formats_agree (stale : ℕ → Word → ℕ → Word) (assembler : DezAssembler capacity)
    (inputFile hexFile binaryFile : List Byte) (contents : Option (List Byte)) (writable : Bool)
    (hhex : isHexFile hexFile = true) (hbinary : isHexFile binaryFile = false) :
    ((∃ hex, Writes stale assembler inputFile hexFile contents writable hex) ↔
      ∃ binary, Writes stale assembler inputFile binaryFile contents writable binary) ∧
    ∀ hex binary, Writes stale assembler inputFile hexFile contents writable hex →
      Writes stale assembler inputFile binaryFile contents writable binary →
      ∃ ws strings, hexFileWords hex = some ws ∧ binary = programFile ws strings := by
  constructor
  · constructor
    · rintro ⟨hex, h⟩
      obtain ⟨input, assembled, hcontents, hwritable, hassemble, hwritten⟩ := writes_iff.mp h
      rw [if_pos hhex] at hwritten
      rcases written_agree assembled.outputBuffer assembled.outputSize assembled.symbolTable with
        ⟨ws, -, -, hbin⟩ | ⟨fault, herror, -⟩
      · refine ⟨programFile ws (stringData assembled.symbolTable.symbols),
          writes_iff.mpr ⟨input, assembled, hcontents, hwritable, hassemble, ?_⟩⟩
        rw [hbinary]
        exact hbin
      · rw [herror] at hwritten
        cases hwritten
    · rintro ⟨binary, h⟩
      obtain ⟨input, assembled, hcontents, hwritable, hassemble, hwritten⟩ := writes_iff.mp h
      rw [hbinary] at hwritten
      rcases written_agree assembled.outputBuffer assembled.outputSize assembled.symbolTable with
        ⟨ws, -, hhexfile, -⟩ | ⟨fault, -, herror⟩
      · refine ⟨bytes "v2.0 raw\n" ++ ws.flatMap hexLine,
          writes_iff.mpr ⟨input, assembled, hcontents, hwritable, hassemble, ?_⟩⟩
        rw [if_pos hhex]
        exact hhexfile
      · exact absurd (hwritten.symm.trans herror) nofun
  · intro hex binary h h'
    obtain ⟨input, assembled, hcontents, -, hassemble, hwritten⟩ := writes_iff.mp h
    obtain ⟨input', assembled', hcontents', -, hassemble', hwritten'⟩ := writes_iff.mp h'
    cases hcontents.symm.trans hcontents'
    cases hassemble.symm.trans hassemble'
    rw [if_pos hhex] at hwritten
    rw [hbinary] at hwritten'
    rcases written_agree assembled.outputBuffer assembled.outputSize assembled.symbolTable with
      ⟨ws, hread, hhexfile, hbin⟩ | ⟨fault, herror, -⟩
    · cases hwritten.symm.trans hhexfile
      cases hwritten'.symm.trans hbin
      exact ⟨ws, _, hread, rfl⟩
    · rw [herror] at hwritten
      cases hwritten

theorem formats_agree_halt :
    ((∃ hex, Writes (fun _ _ _ => 0) (assemblerInit false (fun _ : Fin 8 => 0)) (bytes "a.asm")
        (bytes "a.hex") (some (bytes "HALT")) true hex) ↔
      ∃ binary, Writes (fun _ _ _ => 0) (assemblerInit false (fun _ : Fin 8 => 0)) (bytes "a.asm")
        (bytes "a.dez") (some (bytes "HALT")) true binary) ∧
    ∀ hex binary,
      Writes (fun _ _ _ => 0) (assemblerInit false (fun _ : Fin 8 => 0)) (bytes "a.asm")
        (bytes "a.hex") (some (bytes "HALT")) true hex →
      Writes (fun _ _ _ => 0) (assemblerInit false (fun _ : Fin 8 => 0)) (bytes "a.asm")
        (bytes "a.dez") (some (bytes "HALT")) true binary →
      ∃ ws strings, hexFileWords hex = some ws ∧ binary = programFile ws strings :=
  formats_agree _ _ _ _ _ _ _ (by decide) (by decide)

end writes

end Dez.Assembler
