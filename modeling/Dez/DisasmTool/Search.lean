import Dez.DisasmTool.Listing

/-! The search of `disasm_tool.c` for the assembly file of a binary. -/
namespace Dez.DisasmTool

/-- `snprintf` into so many bytes. -/
def snprintf (size : ℕ) (text : List Byte) : List Byte := text.take (size - 1)

/-- `generate_asm_filename` -/
def generateAsmFilename (binaryFilename : List Byte) (size : ℕ) : Option (List Byte) :=
  match strrchr (ch '.') binaryFilename with
  | none => none
  | some baseLen =>
    if binaryFilename.drop baseLen ≠ bytes ".bin" then none
    else if baseLen ≥ size - 3 then none
    else some (binaryFilename.take baseLen ++ bytes ".s")

/-- What `get_directory` returns: a pointer to its `static char dir[1024]`, or the literal. -/
inductive Directory
  | buffer
  | dot
  deriving DecidableEq

/-- The text behind the pointer, while the buffer holds `dir`. -/
def Directory.text (dir : List Byte) : Directory → List Byte
  | buffer => dir
  | dot => bytes "."

/-- `get_directory`, with what its buffer holds before and after the call. A path that is in the
buffer itself is copied onto itself. -/
def getDirectory (dir filepath : List Byte) : Directory × List Byte :=
  match strrchr (ch '/') filepath with
  | some dirLen => if dirLen < 1024 then (.buffer, filepath.take dirLen) else (.dot, dir)
  | none => (.dot, dir)

def getFilename (filepath : List Byte) : List Byte :=
  match strrchr (ch '/') filepath with
  | some k => filepath.drop (k + 1)
  | none => filepath

/-- `"%s/%s"` in a `char test_path[1024]`. -/
def testPath (dir filename : List Byte) : List Byte := snprintf 1024 (dir ++ ch '/' :: filename)

def sourceDirs : List (List Byte) :=
  [bytes "src", bytes "source", bytes "asm", bytes "assembly", bytes "tests/asm",
    bytes "test/asm", bytes "examples", bytes "samples"]

def cwdDirs : List (List Byte) := bytes "." :: sourceDirs

/-- The loop over the source directories. The directory of the binary is a pointer into the buffer
that the call for its parent writes to. -/
def searchSourceDirs (readable : List Byte → Bool) (binaryDir : Directory) (filename : List Byte) :
    List (List Byte) → List Byte → Option (List Byte)
  | [], _ => none
  | sourceDir :: rest, dir =>
    let path := testPath (binaryDir.text dir ++ ch '/' :: sourceDir) filename
    if readable path then some path
    else
      let (parentDir, dir) := getDirectory dir (binaryDir.text dir)
      let path := testPath (parentDir.text dir ++ ch '/' :: sourceDir) filename
      if parentDir.text dir ≠ binaryDir.text dir ∧ readable path then some path
      else searchSourceDirs readable binaryDir filename rest dir

/-- `find_assembly_file`, where `access` tells which files are readable and the buffer of
`get_directory` holds `dir`. -/
def findAssemblyFile (readable : List Byte → Bool) (dir binaryFilename : List Byte)
    (customDirs : List (List Byte)) : Option (List Byte) :=
  match generateAsmFilename binaryFilename 1024 with
  | none => none
  | some asmFilename =>
    if readable asmFilename then some asmFilename
    else
      let filename := getFilename asmFilename
      match (customDirs.map fun dir => testPath dir filename).find? readable with
      | some path => some path
      | none =>
        let (binaryDir, dir) := getDirectory dir binaryFilename
        match searchSourceDirs readable binaryDir filename sourceDirs dir with
        | some path => some path
        | none => (cwdDirs.map fun dir => testPath dir filename).find? readable

/-- One level up, if there is one. -/
def parent (dir : List Byte) : List Byte :=
  match strrchr (ch '/') dir with
  | some k => dir.take k
  | none => dir

/-- The directory of a file. -/
def directoryOf (filepath : List Byte) : List Byte :=
  match strrchr (ch '/') filepath with
  | some k => filepath.take k
  | none => bytes "."

/-- What turn `k` of the search tries, for a binary in `dir`: a source directory `k` levels up, and
the one beside it once no level is left. -/
def turnPaths (dir filename : List Byte) (turn : List Byte × ℕ) : List (List Byte) :=
  let above := parent^[turn.2] dir
  testPath (above ++ ch '/' :: turn.1) filename ::
    if (strrchr (ch '/') above).isSome ∨ above = bytes "." then []
    else [testPath (bytes "." ++ ch '/' :: turn.1) filename]

/-- All files that the search tries, in the order in which it does. -/
def candidates (binaryFilename asmFilename : List Byte) (customDirs : List (List Byte)) :
    List (List Byte) :=
  let filename := getFilename asmFilename
  asmFilename :: (customDirs.map fun dir => testPath dir filename) ++
    sourceDirs.zipIdx.flatMap (turnPaths (directoryOf binaryFilename) filename) ++
    cwdDirs.map fun dir => testPath dir filename

variable {text dir filename binary asm : List Byte} {readable : List Byte → Bool} {k : ℕ}

theorem parent_of_slash (h : strrchr (ch '/') dir = some k) : parent dir = dir.take k := by
  rw [parent, h]

theorem parent_of_not_mem (h : ch '/' ∉ dir) : parent dir = dir := by
  rw [parent, strrchr_none.mpr h]

theorem strrchr_isSome : (strrchr (ch '/') dir).isSome = true ↔ ch '/' ∈ dir := by
  rw [Option.isSome_iff_ne_none, ne_eq, strrchr_none, not_not]

theorem length_parent_le (dir : List Byte) : (parent dir).length ≤ dir.length := by
  cases h : strrchr (ch '/') dir with
  | some k =>
    rw [parent_of_slash h]
    exact List.length_take_le' ..
  | none => rw [parent_of_not_mem (strrchr_none.mp h)]

/-- The turns from a directory on are one turn there and the others from its parent on. -/
theorem turnPaths_cons (dir filename sourceDir : List Byte) (rest : List (List Byte)) :
    (sourceDir :: rest).zipIdx.flatMap (turnPaths dir filename) =
      turnPaths dir filename (sourceDir, 0) ++
        rest.zipIdx.flatMap (turnPaths (parent dir) filename) := by
  rw [List.zipIdx_cons, List.flatMap_cons, Nat.zero_add, List.zipIdx_succ, List.flatMap_map]
  apply congrArg
  apply List.flatMap_congr
  rintro ⟨sourceDir, k⟩ -
  rw [turnPaths, turnPaths, Function.iterate_succ_apply]

theorem getDirectory_slash (h : strrchr (ch '/') text = some k) (hlen : text.length ≤ 1024) :
    getDirectory dir text = (.buffer, text.take k) := by
  have hk := (strrchr_some h).1
  rw [getDirectory, h]
  exact if_pos (by omega)

theorem getDirectory_plain (h : ch '/' ∉ text) : getDirectory dir text = (.dot, dir) := by
  rw [getDirectory, strrchr_none.mpr h]

section search

variable {binaryDir parentDir : Directory} {dir' sourceDir : List Byte} {dirs : List (List Byte)}

/-- One turn, by the texts behind the pointers before and after the call for the parent. -/
theorem searchSourceDirs_cons {d d' up : List Byte} (hd : binaryDir.text dir = d)
    (hget : getDirectory dir d = (parentDir, dir')) (hd' : binaryDir.text dir' = d')
    (hup : parentDir.text dir' = up) :
    searchSourceDirs readable binaryDir filename (sourceDir :: dirs) dir =
      if readable (testPath (d ++ ch '/' :: sourceDir) filename) then
        some (testPath (d ++ ch '/' :: sourceDir) filename)
      else if up ≠ d' ∧ readable (testPath (up ++ ch '/' :: sourceDir) filename) then
        some (testPath (up ++ ch '/' :: sourceDir) filename)
      else searchSourceDirs readable binaryDir filename dirs dir' := by
  subst hd hd' hup
  rw [searchSourceDirs, hget]

theorem find?_turnPaths (dir filename sourceDir : List Byte) :
    (turnPaths dir filename (sourceDir, 0)).find? readable =
      if readable (testPath (dir ++ ch '/' :: sourceDir) filename) then
        some (testPath (dir ++ ch '/' :: sourceDir) filename)
      else if (ch '/' ∉ dir ∧ dir ≠ bytes ".") ∧
          readable (testPath (bytes "." ++ ch '/' :: sourceDir) filename) then
        some (testPath (bytes "." ++ ch '/' :: sourceDir) filename)
      else none := by
  rw [turnPaths, List.find?_cons, Function.iterate_zero_apply]
  simp only [strrchr_isSome]
  by_cases hfirst : readable (testPath (dir ++ ch '/' :: sourceDir) filename) = true
  · rw [hfirst, if_pos rfl]
  · rw [Bool.eq_false_iff.mpr hfirst, if_neg Bool.false_ne_true]
    by_cases hlevel : ch '/' ∈ dir ∨ dir = bytes "."
    · rw [if_pos hlevel, if_neg fun h => not_or.mpr h.1 hlevel]
      rfl
    · rw [if_neg hlevel, List.find?_singleton]
      simp only [not_or.mp hlevel, ne_eq, not_false_eq_true, and_self, true_and]

/-- While a level is left, the call for the parent writes over the directory it was given, and the
parent is not tried. -/
theorem searchSourceDirs_eq (h : (binaryDir.text dir).length ≤ 1024) :
    searchSourceDirs readable binaryDir filename dirs dir =
      (dirs.zipIdx.flatMap (turnPaths (binaryDir.text dir) filename)).find? readable := by
  induction dirs generalizing dir with
  | nil => rfl
  | cons sourceDir dirs ih =>
    rw [turnPaths_cons, List.find?_append]
    by_cases hmem : ch '/' ∈ binaryDir.text dir
    · -- the pointers are equal, and so are the texts behind them
      obtain ⟨k, hslash⟩ := Option.ne_none_iff_exists'.mp (mt strrchr_none.mp (not_not.mpr hmem))
      obtain rfl : binaryDir = .buffer := by
        cases binaryDir with
        | buffer => rfl
        | dot =>
          have hno : ch '/' ∉ bytes "." := by decide
          exact absurd hmem hno
      change ch '/' ∈ dir at hmem
      change dir.length ≤ 1024 at h
      change strrchr (ch '/') dir = some k at hslash
      change _ = Option.or ((turnPaths dir filename (sourceDir, 0)).find? readable)
        ((dirs.zipIdx.flatMap (turnPaths (parent dir) filename)).find? readable)
      have hrest : searchSourceDirs readable .buffer filename dirs (parent dir) =
          (dirs.zipIdx.flatMap (turnPaths (parent dir) filename)).find? readable :=
        ih ((length_parent_le dir).trans h)
      have hget := @getDirectory_slash dir dir k hslash h
      have hself : ¬ (parent dir ≠ parent dir ∧
          readable (testPath (parent dir ++ ch '/' :: sourceDir) filename) = true) :=
        fun h => h.1 rfl
      have hlevel : ¬ ((ch '/' ∉ dir ∧ dir ≠ bytes ".") ∧
          readable (testPath (bytes "." ++ ch '/' :: sourceDir) filename) = true) :=
        fun h => h.1.1 hmem
      rw [← parent_of_slash hslash] at hget
      have hturn := @searchSourceDirs_cons dir filename readable .buffer .buffer (parent dir)
        sourceDir dirs dir (parent dir) (parent dir) rfl hget rfl rfl
      rw [hturn, find?_turnPaths, if_neg hself, if_neg hlevel, hrest]
      split <;> rfl
    · rw [parent_of_not_mem hmem, ← ih h]
      generalize hd : binaryDir.text dir = d at hmem
      have hdot : bytes "." ≠ d ↔ ch '/' ∉ d ∧ d ≠ bytes "." :=
        ⟨fun h => ⟨hmem, h.symm⟩, fun h => h.2.symm⟩
      rw [searchSourceDirs_cons hd (getDirectory_plain hmem) hd rfl, find?_turnPaths]
      simp only [Directory.text, hdot]
      split
      · rfl
      · split <;> rfl

end search

theorem generateAsmFilename_some {size : ℕ} (h : generateAsmFilename binary size = some asm) :
    ∃ baseLen, binary.drop baseLen = bytes ".bin" ∧ baseLen < size - 3 ∧
      asm = binary.take baseLen ++ bytes ".s" := by
  unfold generateAsmFilename at h
  split at h
  · cases h
  · rename_i baseLen hdot
    split_ifs at h with hext hsize
    cases h
    exact ⟨baseLen, not_not.mp hext, Nat.not_le.mp hsize, rfl⟩

/-- A directory that a name with `.bin` is in fits the buffer. -/
theorem getDirectory_binary (h : generateAsmFilename binary 1024 = some asm) :
    ∃ binaryDir dir', getDirectory dir binary = (binaryDir, dir') ∧
      binaryDir.text dir' = directoryOf binary ∧ (directoryOf binary).length ≤ 1024 := by
  obtain ⟨baseLen, hext, hsize, -⟩ := generateAsmFilename_some h
  by_cases hmem : ch '/' ∈ binary
  · obtain ⟨k, hslash⟩ := Option.ne_none_iff_exists'.mp (mt strrchr_none.mp (not_not.mpr hmem))
    obtain ⟨hlt, hdrop, -⟩ := strrchr_some hslash
    have hk : k < baseLen := by
      by_contra hge
      have hin : ch '/' ∈ binary.drop baseLen := by
        have hsuffix : binary.drop k <:+ binary.drop baseLen :=
          List.drop_suffix_drop_left _ (Nat.not_lt.mp hge)
        exact hsuffix.subset (by rw [hdrop]; exact List.mem_cons_self)
      rw [hext] at hin
      exact absurd hin (by decide)
    have hdir : directoryOf binary = binary.take k := by
      rw [directoryOf, hslash]
    refine ⟨.buffer, binary.take k, ?_, hdir.symm, ?_⟩
    · rw [getDirectory, hslash]
      exact if_pos (by omega)
    · rw [hdir, List.length_take]
      omega
  · have hdir : directoryOf binary = bytes "." := by rw [directoryOf, strrchr_none.mpr hmem]
    refine ⟨.dot, dir, getDirectory_plain hmem, hdir.symm, ?_⟩
    rw [hdir]
    decide

theorem length_testPath (dir filename : List Byte) : (testPath dir filename).length < 1024 := by
  rw [testPath, snprintf, List.length_take]
  omega

/-- Every path tried fits the buffer it is copied to. -/
theorem length_candidates (h : generateAsmFilename binary 1024 = some asm)
    {customDirs : List (List Byte)} {path : List Byte}
    (hpath : path ∈ candidates binary asm customDirs) : path.length < 1024 := by
  obtain ⟨baseLen, -, hsize, rfl⟩ := generateAsmFilename_some h
  simp only [candidates, List.cons_append, List.mem_cons, List.mem_append, List.mem_map,
    List.mem_flatMap] at hpath
  rcases hpath with rfl | (⟨custom, -, rfl⟩ | ⟨turn, -, hturn⟩) | ⟨cwd, -, rfl⟩
  · rw [List.length_append, List.length_take]
    have hs : (bytes ".s").length = 2 := rfl
    omega
  · exact length_testPath ..
  · rw [turnPaths] at hturn
    rcases List.mem_cons.mp hturn with rfl | hbeside
    · exact length_testPath ..
    · split at hbeside
      · cases hbeside
      · rw [List.mem_singleton.mp hbeside]
        exact length_testPath ..
  · exact length_testPath ..

/-- The search returns the first readable file of a list that only the names given decide, and none
that is too long for its buffer. Of the directories above the binary, one is tried with each source
directory in turn, and the working directory beside it once there is none above. -/
theorem search_first_readable (readable : List Byte → Bool) (dir binaryFilename : List Byte)
    (customDirs : List (List Byte)) :
    findAssemblyFile readable dir binaryFilename customDirs =
        (generateAsmFilename binaryFilename 1024).bind (fun asmFilename =>
          (candidates binaryFilename asmFilename customDirs).find? readable) ∧
      ∀ path, findAssemblyFile readable dir binaryFilename customDirs = some path →
        readable path = true ∧ path.length < 1024 := by
  have hfind : findAssemblyFile readable dir binaryFilename customDirs =
      (generateAsmFilename binaryFilename 1024).bind fun asmFilename =>
        (candidates binaryFilename asmFilename customDirs).find? readable := by
    unfold findAssemblyFile
    cases hasm : generateAsmFilename binaryFilename 1024 with
    | none => rfl
    | some asm =>
      obtain ⟨binaryDir, dir', hget, htext, hlen⟩ := @getDirectory_binary dir _ _ hasm
      rw [← htext] at hlen
      have hsearch := @searchSourceDirs_eq dir' (getFilename asm) readable binaryDir sourceDirs hlen
      simp only [hget, hsearch, htext, Option.bind_some, candidates, List.cons_append,
        List.find?_cons, List.find?_append]
      cases readable asm with
      | true => rfl
      | false =>
        simp only [Bool.false_eq_true, if_false]
        split <;> simp only [*, Option.some_or, Option.none_or]
        split <;> simp only [*, Option.some_or, Option.none_or]
  refine ⟨hfind, fun path hpath => ?_⟩
  rw [hfind] at hpath
  obtain ⟨asm, hasm, hpath⟩ := Option.bind_eq_some_iff.mp hpath
  exact ⟨List.find?_some hpath, length_candidates hasm (List.mem_of_find?_eq_some hpath)⟩

end Dez.DisasmTool
