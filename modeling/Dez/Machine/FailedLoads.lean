import Dez.Machine.Boot

/-! What `dez_vm_load_program` leaves behind at each of its exits. -/
namespace Dez.Machine

variable {host : Host} {vm : DezVm} {size : Word} {body : List Byte}

/-- The load sets `cpu.state = ERROR` itself: it ends there whatever state the CPU was in. -/
def SetsError (host : Host) (vm : DezVm) (file : Option (List Byte)) : Prop :=
  ∀ state, ∃ vm', dezVmLoadProgram host (vm.setState state) file = .ok vm' ∧
    vm'.cpu.state = .error

/-- The load returns with the code segment protected, and a failed load changed neither the memory
nor `program_size`. -/
def LoadSafe (host : Host) (vm : DezVm) (file : Option (List Byte)) : Prop :=
  ∃ vm', dezVmLoadProgram host vm file = .ok vm' ∧ vm'.memory.codeReadonly = true ∧
    (SetsError host vm file → vm'.memory = vm.memory ∧ vm'.programSize = vm.programSize)

/-- The file fails before anything is stored, or repeats the `program_size` that its header
overwrites, or has all the instructions that its header counts. -/
def CleanLoad (host : Host) (vm : DezVm) : Option (List Byte) → Prop
  | none => True
  | some file =>
    match freadWord file with
    | none => file = [] ∨ host.shortRead vm.programSize file = vm.programSize
    | some (size, body) =>
      if size.toNat = 0 ∨ size.toNat > 1024 then size = vm.programSize
      else 4 * size.toNat ≤ body.length

/-- An exit that sets the error and leaves the memory alone is safe exactly when it also left
`program_size` as it was. -/
theorem loadSafe_of_fail {file : Option (List Byte)} (hr : vm.memory.codeReadonly = true)
    (newSize : Word) (out : Output)
    (h : ∀ state, dezVmLoadProgram host (vm.setState state) file =
      .ok ({ vm.setState state with programSize := newSize }.fail out)) :
    LoadSafe host vm file ↔ newSize = vm.programSize := by
  have hvm : dezVmLoadProgram host vm file =
      .ok ({ vm with programSize := newSize }.fail out) := h vm.cpu.state
  have hset : SetsError host vm file := by
    intro state
    exact ⟨_, h state, rfl⟩
  constructor
  · rintro ⟨vm', hload, -, hkeep⟩
    cases hvm.symm.trans hload
    exact (hkeep hset).2
  · intro hsize
    exact ⟨_, hvm, hr, fun _ => ⟨rfl, hsize⟩⟩

theorem not_loadSafe_of_truncated (hsize : ¬ (size.toNat = 0 ∨ size.toNat > 1024))
    (hlen : body.length < 4 * size.toNat) :
    ¬ LoadSafe host vm (some (wordBytes size ++ body)) := by
  rintro ⟨vm', hload, hreadonly, -⟩
  obtain ⟨vm'', hload', -, hoff⟩ := load_truncated host vm hsize hlen
  cases hload.symm.trans hload'
  rw [hreadonly] at hoff
  cases hoff

theorem loadSafe_of_programFile {ws : List Word} (strings : List Byte) (h1 : 1 ≤ ws.length)
    (h2 : ws.length ≤ 1024) : LoadSafe host vm (some (programFile ws strings)) := by
  refine ⟨_, dezVmLoadProgram_programFile host vm strings h1 h2, rfl, ?_⟩
  -- a load that succeeds leaves a running CPU running
  intro hset
  obtain ⟨vm', hload, hstate⟩ := hset .running
  cases (dezVmLoadProgram_programFile host _ strings h1 h2).symm.trans hload
  cases hstate

theorem loadSafe_iff (host : Host) {vm : DezVm} (hr : vm.memory.codeReadonly = true)
    (file : Option (List Byte)) : LoadSafe host vm file ↔ CleanLoad host vm file := by
  cases file with
  | none =>
    refine (loadSafe_of_fail hr vm.programSize _ (fun _ => rfl)).trans ?_
    simp [CleanLoad]
  | some file =>
    by_cases hf : file.length < 4
    · have hnone := freadWord_eq_none.mpr hf
      have hsafe := loadSafe_of_fail hr
        (if file = [] then vm.programSize else host.shortRead vm.programSize file) _
        (fun state => load_headerless hnone)
      refine hsafe.trans ?_
      simp only [CleanLoad, hnone]
      by_cases hfile : file = []
      · simp [hfile]
      · simp [hfile]
    · obtain ⟨size, body, rfl⟩ := exists_header file (Nat.le_of_not_lt hf)
      simp only [CleanLoad, freadWord_wordBytes]
      by_cases hsize : size.toNat = 0 ∨ size.toNat > 1024
      · rw [if_pos hsize]
        exact loadSafe_of_fail hr _ _ (fun _ => load_badSize hsize)
      · rw [if_neg hsize]
        by_cases hlen : body.length < 4 * size.toNat
        · exact iff_of_false (not_loadSafe_of_truncated hsize hlen) (by omega)
        · obtain ⟨ws, strings, hfile, h1, h2⟩ := exists_programFile hsize (Nat.le_of_not_lt hlen)
          rw [hfile]
          exact iff_of_true (loadSafe_of_programFile strings h1 h2) (Nat.le_of_not_lt hlen)

theorem loadSafe_iff_halt : dezVmInit.memory.codeReadonly = true ∧
    LoadSafe zeroHost dezVmInit (some (wordBytes 1#32 ++ wordBytes 0#32)) :=
  ⟨rfl, (loadSafe_iff zeroHost rfl _).mpr (by
    simp only [CleanLoad, freadWord_wordBytes]
    decide)⟩

/-- A file that promises one instruction and ends there. -/
theorem not_loadSafe_truncated : ¬ ∀ (host : Host) (vm : DezVm) (file : Option (List Byte)),
    vm.memory.codeReadonly = true → LoadSafe host vm file := by
  intro h
  have hsize : ¬ ((1#32).toNat = 0 ∨ (1#32).toNat > 1024) := by decide
  exact not_loadSafe_of_truncated hsize (by decide)
    (h zeroHost dezVmInit (some (wordBytes 1#32 ++ [])) rfl)

end Dez.Machine
