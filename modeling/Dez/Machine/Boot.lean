import Dez.Machine.Loader
import Dez.Machine.Writes

/-! The states a run can start from and reach, and what holds in all of them. -/
namespace Dez.Machine

variable {host : Host} {vm vm' : DezVm}

/-- The machine `dez_vm_init` leaves, with the debug flag the caller may set afterwards. -/
def freshVm (debugMode : Bool) : DezVm := { dezVmInit with debugMode := debugMode }

/-- The outcome of loading some file into a fresh machine. -/
def Booted (vm : DezVm) : Prop :=
  ∃ host debugMode file, dezVmLoadProgram host (freshVm debugMode) file = .ok vm

/-- The outcome of loading some file without error. -/
def Loaded (vm : DezVm) : Prop := Booted vm ∧ vm.cpu.state = .running

/-- A state of some run from a boot. -/
def Reachable (vm : DezVm) : Prop :=
  ∃ E n, Valid E ∧ Booted (E.state 0) ∧ E.state n = vm

/-- The machine with a well-formed file loaded. -/
def loadedVm (debugMode : Bool) (ws : List Word) (strings : List Byte) : DezVm :=
  { freshVm debugMode with programSize := BitVec.ofNat 32 ws.length }.setMemory
    (loadedMemory memoryInit ws strings)

/-- A host that gives zero for every undefined operation. -/
def zeroHost : Host where
  div := fun _ => 0
  shl := fun _ _ => 0
  shr := fun _ _ => 0
  shortRead := fun _ _ => 0

theorem booted_loadedVm (debugMode : Bool) {ws : List Word} (strings : List Byte)
    (h1 : 1 ≤ ws.length) (h2 : ws.length ≤ 1024) : Booted (loadedVm debugMode ws strings) :=
  ⟨zeroHost, debugMode, _, dezVmLoadProgram_programFile _ _ strings h1 h2⟩

theorem loaded_loadedVm (debugMode : Bool) {ws : List Word} (strings : List Byte)
    (h1 : 1 ≤ ws.length) (h2 : ws.length ≤ 1024) : Loaded (loadedVm debugMode ws strings) :=
  ⟨booted_loadedVm debugMode strings h1 h2, rfl⟩

/-- A boot ends in an error or with a well-formed file in memory. -/
theorem Booted.cases (h : Booted vm) :
    vm.cpu = { dezVmInit.cpu with state := .error } ∨
    ∃ debugMode ws strings, 1 ≤ ws.length ∧ ws.length ≤ 1024 ∧
      vm = loadedVm debugMode ws strings := by
  obtain ⟨host, debugMode, file, h⟩ := h
  rcases load_cases host (freshVm debugMode) file with ⟨vm', h', hcpu⟩ | ⟨ws, strings, rfl, h1, h2⟩
  · rw [h] at h'
    cases h'
    exact .inl hcpu
  · rw [dezVmLoadProgram_programFile _ _ _ h1 h2] at h
    cases h
    exact .inr ⟨debugMode, ws, strings, h1, h2, rfl⟩

theorem sameLayout_putWords (mem : DezMemory) (a : ℕ) (ws : List Word) :
    mem.SameLayout (mem.putWords a ws) := by
  induction ws generalizing mem a with
  | nil => rfl
  | cons w ws ih => exact (mem.sameLayout_put a w).trans (ih _ _)

theorem sameLayout_putBytes (mem : DezMemory) (b : ℕ) (cs : List Byte) :
    mem.SameLayout (mem.putBytes b cs) := by
  induction cs generalizing mem b with
  | nil => rfl
  | cons c cs ih => exact (mem.sameLayout_put _ _).trans (ih _ _)

/-- Loading changes cells only, so it gives the protection back. -/
theorem protected_loadedMemory (ws : List Word) (strings : List Byte) :
    Protected (loadedMemory memoryInit ws strings) := by
  have h := (sameLayout_putWords (memoryInit.protect false) 0 ws).trans
    (sameLayout_putBytes _ 0x100 (strings.take 256))
  unfold loadedMemory
  rw [← h]
  exact ⟨rfl, rfl, rfl⟩

/-- The stack pointer stays in its range, and a machine that runs is protected. -/
structure Invariant (vm : DezVm) : Prop where
  low : 0x7FF ≤ vm.cpu.sp.toNat
  high : vm.cpu.sp.toNat ≤ 0xFFF
  guarded : Protected vm.memory ∨ vm.cpu.state = .error

theorem Invariant.protected (h : Invariant vm) (hr : vm.cpu.state = .running) :
    Protected vm.memory :=
  h.guarded.resolve_right (by simp [hr])

theorem invariant_booted (h : Booted vm) : Invariant vm := by
  rcases h.cases with hcpu | ⟨debugMode, ws, strings, -, -, rfl⟩
  · exact ⟨by rw [hcpu]; decide, by rw [hcpu]; decide, .inr (by rw [hcpu])⟩
  · have hsp : (loadedVm debugMode ws strings).cpu.sp.toNat = 0xFFF := rfl
    exact ⟨by omega, by omega, .inl (protected_loadedMemory ws strings)⟩

end Dez.Machine
