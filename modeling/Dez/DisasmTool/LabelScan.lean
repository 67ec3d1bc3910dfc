import Dez.Runs
import Dez.Assembler.SymbolTable

/-! The scan of `disasm_tool.c` for the labels of an assembly file. -/
namespace Dez.DisasmTool
open Assembler

/-- The loops that cut the end of a string stop at its first character. -/
def trimEnd (cut : Byte → Bool) : List Byte → List Byte
  | [] => []
  | c :: rest => c :: rest.rdropWhile cut

def isTrimmed (c : Byte) : Bool := c = newline || c = 0x0D#8 || c = 0x20#8 || c = 0x09#8

def trimString (str : List Byte) : List Byte := trimEnd isTrimmed str

/-- `isalnum` -/
def isAlnum (c : Byte) : Bool :=
  (48 ≤ c.toNat && c.toNat ≤ 57) || (65 ≤ c.toNat && c.toNat ≤ 90) ||
    (97 ≤ c.toNat && c.toNat ≤ 122)

def isValidLabelName (name : List Byte) : Bool :=
  name.length ≠ 0 && name.all fun c => isAlnum c || c = ch '_'

def isBlank (c : Byte) : Bool := c = 0x20#8 || c = 0x09#8

/-- The label name, when a line is nothing but a label. -/
def extractLabelFromLine (line : List Byte) (labelSize : ℕ) : Option (List Byte) :=
  let label := (line.dropWhile isBlank).takeWhile (· != ch ':')
  let behind := (line.dropWhile (· != ch ':')).tail
  let afterColon := (behind.dropWhile isBlank).headD 0#8
  if ch ':' ∉ line then none
  else if behind ≠ [] ∧ afterColon ≠ 0#8 ∧ afterColon ≠ ch ';' then none
  else if label.length = 0 ∨ labelSize ≤ label.length then none
  else
    let labelName := trimEnd isBlank label
    if isValidLabelName labelName then some labelName else none

/-- What the scan takes a line for. -/
inductive FileLine
  | skipped
  | label (name : List Byte)
  | instruction
  deriving DecidableEq

/-- The line as the buffer holds it, a C string. -/
def fileLine (buffer : List Byte) : FileLine :=
  let line := trimString (buffer.takeWhile (· != 0#8))
  if line.length = 0 ∨ line.headD 0#8 = ch ';' then .skipped
  else
    match extractLabelFromLine line 64 with
    | some name => .label name
    | none => .instruction

structure LabelScan where
  table : SymbolTable
  address : Word
  lineNum : ℕ
  printed : List Message

/-- One turn of the loop of `parse_assembly_file`. -/
def scanLine (scan : LabelScan) (buffer : List Byte) : LabelScan :=
  let scan := { scan with lineNum := scan.lineNum + 1 }
  match fileLine buffer with
  | .skipped => scan
  | .label name =>
    let defined := symbolTableDefine scan.table name scan.address scan.lineNum
    { scan with table := defined.2.1, printed := scan.printed ++ defined.2.2 }
  | .instruction => { scan with address := scan.address + 4#32 }

/-- `fgets` into a buffer with room for so many characters: what it reads, and the rest. -/
def fgets : ℕ → List Byte → List Byte × List Byte
  | 0, file => ([], file)
  | _ + 1, [] => ([], [])
  | room + 1, c :: file =>
    if c = newline then ([c], file)
    else (c :: (fgets room file).1, (fgets room file).2)

/-- What the calls of `fgets` read until the end of the file. -/
def fgetsLines : ℕ → List Byte → List (List Byte)
  | 0, _ => []
  | _ + 1, [] => []
  | fuel + 1, c :: file =>
    let read := fgets 1023 (c :: file)
    read.1 :: fgetsLines fuel read.2

/-- Every call reads a character. -/
def fileLines (file : List Byte) : List (List Byte) := fgetsLines file.length file

def scanFile (file : List Byte) : LabelScan :=
  (fileLines file).foldl scanLine ⟨symbolTableInit, 0#32, 0, []⟩

/-- The table and what is printed; no file, no table. -/
def parseAssemblyFile (asmFile : Option (List Byte)) : Option (SymbolTable × List Message) :=
  asmFile.map fun file => ((scanFile file).table, (scanFile file).printed)

variable {line rest file : List Byte} {room fuel : ℕ}

section file

theorem fgets_line (hnewline : newline ∉ line) (h : line.length < room) (rest : List Byte) :
    fgets room (line ++ newline :: rest) = (line ++ [newline], rest) := by
  induction line generalizing room with
  | nil =>
    cases room with
    | zero => cases h
    | succ room => rfl
  | cons c line ih =>
    obtain ⟨hc, hline⟩ := not_or.mp (mt List.mem_cons.mpr hnewline)
    cases room with
    | zero => cases h
    | succ room =>
      rw [List.cons_append, fgets, if_neg (Ne.symm hc), ih hline (Nat.lt_of_succ_lt_succ h)]
      rfl

theorem length_fgets_le (room : ℕ) (file : List Byte) :
    (fgets room file).2.length ≤ file.length := by
  induction file generalizing room with
  | nil => cases room <;> exact le_rfl
  | cons c file ih =>
    cases room with
    | zero => exact le_rfl
    | succ room =>
      rw [fgets]
      split
      · exact Nat.le_succ _
      · exact (ih room).trans (Nat.le_succ _)

/-- `fgets` with room goes on. -/
theorem length_fgets_lt (room : ℕ) (c : Byte) (file : List Byte) :
    (fgets (room + 1) (c :: file)).2.length ≤ file.length := by
  rw [fgets]
  split
  · exact le_rfl
  · exact length_fgets_le room file

theorem fgetsLines_fuel (h : file.length ≤ fuel) : fgetsLines fuel file = fileLines file := by
  have hmore : ∀ (k : ℕ) {fuel} {file : List Byte}, file.length ≤ fuel →
      fgetsLines (fuel + k) file = fgetsLines fuel file := by
    intro k fuel
    induction fuel with
    | zero =>
      intro file h
      rw [List.eq_nil_of_length_eq_zero (Nat.le_zero.mp h)]
      cases (0 + k) <;> rfl
    | succ fuel ih =>
      intro file h
      rw [Nat.add_right_comm]
      cases file with
      | nil => rfl
      | cons c file =>
        have hle := (length_fgets_lt 1022 c file).trans (Nat.le_of_succ_le_succ h)
        rw [fgetsLines, fgetsLines]
        exact congrArg (_ :: ·) (ih hle)
  obtain ⟨k, rfl⟩ := Nat.exists_eq_add_of_le h
  exact hmore k le_rfl

theorem fileLines_eq (hne : file ≠ []) :
    fileLines file = (fgets 1023 file).1 :: fileLines (fgets 1023 file).2 := by
  cases file with
  | nil => exact absurd rfl hne
  | cons c file =>
    rw [fileLines, List.length_cons, fgetsLines, fgetsLines_fuel (length_fgets_lt 1022 c file)]

theorem fileLines_line (hnewline : newline ∉ line) (h : line.length < 1023) (rest : List Byte) :
    fileLines (line ++ newline :: rest) = (line ++ [newline]) :: fileLines rest := by
  rw [fileLines_eq (List.append_ne_nil_of_right_ne_nil _ (List.cons_ne_nil _ _)),
    fgets_line hnewline h]

end file

section label

variable {indent name gap behind : List Byte} {cut : Byte → Bool} {c : Byte} {size : ℕ}

theorem isAlnum_or (c : Byte) : (isAlnum c || decide (c = ch '_')) = lexerIsAlnum c := by
  have hline : decide (c = ch '_') = decide (c.toNat = 95) :=
    decide_eq_decide.mpr ⟨fun h => h ▸ rfl, fun h => BitVec.eq_of_toNat_eq h⟩
  rw [hline, isAlnum, lexerIsAlnum, lexerIsAlpha, lexerIsDigit, Bool.eq_iff_iff]
  simp only [Bool.or_eq_true, Bool.and_eq_true, decide_eq_true_eq]
  omega

theorem isValidLabelName_iff :
    isValidLabelName name = true ↔ name ≠ [] ∧ ∀ c ∈ name, lexerIsAlnum c = true := by
  simp only [isValidLabelName, isAlnum_or, Bool.and_eq_true, decide_eq_true_eq, ne_eq,
    List.length_eq_zero_iff, List.all_eq_true]

theorem blank_cases (h : isBlank c = true) : c = 0x20#8 ∨ c = 0x09#8 := by
  rw [isBlank, Bool.or_eq_true, decide_eq_true_eq, decide_eq_true_eq] at h
  exact h

theorem alnum_not_blank (h : lexerIsAlnum c = true) : isBlank c = false := by
  by_contra hc
  rcases blank_cases (Bool.eq_true_of_not_eq_false hc) with rfl | rfl <;> cases h

theorem trimEnd_stop (hc : cut c = false) (hne : indent ≠ []) (rest : List Byte) :
    trimEnd cut (indent ++ c :: rest) = indent ++ c :: rest.rdropWhile cut := by
  cases indent with
  | nil => exact absurd rfl hne
  | cons d indent =>
    rw [List.cons_append, trimEnd, rdropWhile_stop hc]
    rfl

/-- What is cut off a string is at its end. -/
theorem trimEnd_append (line : List Byte) :
    ∃ rest, line = trimEnd cut line ++ rest ∧ ∀ c ∈ rest, cut c = true := by
  cases line with
  | nil => exact ⟨[], rfl, nofun⟩
  | cons c line =>
    refine ⟨line.rtakeWhile cut, ?_, fun d hd => List.mem_rtakeWhile_imp hd⟩
    rw [trimEnd, List.cons_append, List.rdropWhile_append_rtakeWhile]

theorem extract_label (hindent : ∀ c ∈ indent, isBlank c = true) (hne : name ≠ [])
    (hname : ∀ c ∈ name, lexerIsAlnum c = true) (hgap : ∀ c ∈ gap, isBlank c = true)
    (hlength : (name ++ gap).length < size)
    (hbehind : behind = [] ∨ (behind.dropWhile isBlank).headD 0#8 = ch ';') :
    extractLabelFromLine (indent ++ (name ++ (gap ++ ch ':' :: behind))) size = some name := by
  have hcolon : ∀ c, isBlank c = true ∨ lexerIsAlnum c = true → (c != ch ':') = true := by
    rintro c hc
    rw [bne_iff_ne]
    rintro rfl
    rcases hc with hc | hc <;> cases hc
  have hlabel : ((indent ++ (name ++ (gap ++ ch ':' :: behind))).dropWhile isBlank).takeWhile
      (· != ch ':') = name ++ gap := by
    cases name with
    | nil => exact absurd rfl hne
    | cons c name =>
      have hc := alnum_not_blank (hname c (List.mem_cons_self ..))
      have hpass : ∀ d ∈ c :: name ++ gap, (d != ch ':') = true := by
        intro d hd
        rcases List.mem_append.mp hd with hin | hin
        · exact hcolon d (.inr (hname d hin))
        · exact hcolon d (.inl (hgap d hin))
      rw [List.dropWhile_append_of_pos hindent, List.cons_append,
        List.dropWhile_cons_of_neg (by rw [hc]; exact Bool.false_ne_true), ← List.cons_append,
        ← List.append_assoc, List.takeWhile_append_of_pos hpass,
        List.takeWhile_cons_of_neg (by decide), List.append_nil]
  have hrest : ((indent ++ (name ++ (gap ++ ch ':' :: behind))).dropWhile (· != ch ':')).tail =
      behind := by
    rw [List.dropWhile_append_of_pos fun c hc => hcolon c (.inl (hindent c hc)),
      List.dropWhile_append_of_pos fun c hc => hcolon c (.inr (hname c hc)),
      List.dropWhile_append_of_pos fun c hc => hcolon c (.inl (hgap c hc)),
      List.dropWhile_cons_of_neg (by decide)]
    rfl
  have htrim : trimEnd isBlank (name ++ gap) = name := by
    cases name with
    | nil => exact absurd rfl hne
    | cons c name =>
      rw [List.cons_append, trimEnd, rdropWhile_run hgap,
        rdropWhile_none fun d hd => alnum_not_blank (hname d (List.mem_cons_of_mem _ hd))]
  have hpos : (name ++ gap).length ≠ 0 := by
    rw [List.length_append]
    have hlen := List.length_pos_iff.mpr hne
    omega
  unfold extractLabelFromLine
  dsimp only
  rw [hlabel, hrest, htrim, if_neg (not_not_intro (by simp)), if_neg, if_neg (by omega),
    if_pos (isValidLabelName_iff.mpr ⟨hne, hname⟩)]
  rintro ⟨hsome, hend, hcomment⟩
  exact hcomment (hbehind.resolve_left hsome)

/-- A line the scan finds a label in starts with the name and a colon. -/
theorem extract_shape (h : extractLabelFromLine line size = some name) :
    ∃ indent gap behind, line = indent ++ (name ++ (gap ++ ch ':' :: behind)) ∧
      (∀ c ∈ indent, isBlank c = true) ∧ (∀ c ∈ gap, isBlank c = true) ∧ name ≠ [] ∧
      (∀ c ∈ name, lexerIsAlnum c = true) ∧ name.length < size := by
  unfold extractLabelFromLine at h
  dsimp only at h
  split_ifs at h with hcolon hbehind hlength hvalid
  rw [Option.some_inj] at h
  rw [h] at hvalid
  obtain ⟨hne, hname⟩ := isValidLabelName_iff.mp hvalid
  obtain ⟨gap, hgap, hblank⟩ := @trimEnd_append isBlank
    ((line.dropWhile isBlank).takeWhile (· != ch ':'))
  rw [h] at hgap
  have hmem : ch ':' ∈ line.dropWhile isBlank := by
    have hin := hcolon
    rw [← List.takeWhile_append_dropWhile (p := isBlank) (l := line), List.mem_append] at hin
    refine hin.resolve_left fun hblank => ?_
    cases List.mem_takeWhile_imp hblank
  obtain ⟨behind, hrest⟩ := dropWhile_ne hmem
  refine ⟨line.takeWhile isBlank, gap, behind, ?_, fun c hc => List.mem_takeWhile_imp hc, hblank,
    hne, hname, ?_⟩
  · calc line
        = line.takeWhile isBlank ++ line.dropWhile isBlank :=
          List.takeWhile_append_dropWhile.symm
      _ = line.takeWhile isBlank ++ ((line.dropWhile isBlank).takeWhile (· != ch ':') ++
            (line.dropWhile isBlank).dropWhile (· != ch ':')) :=
          congrArg _ List.takeWhile_append_dropWhile.symm
      _ = line.takeWhile isBlank ++ (name ++ (gap ++ ch ':' :: behind)) := by
          rw [hgap, hrest, List.append_assoc]
  · have hlen := congrArg List.length hgap
    rw [List.length_append] at hlen
    omega

end label

end Dez.DisasmTool
