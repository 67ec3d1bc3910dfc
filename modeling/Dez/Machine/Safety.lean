import Dez.Machine.Boot

/-! No run of the machine leaves its arrays. -/
namespace Dez.Machine

/-- Successive calls of `dez_vm_step`; the host may settle each undefined operation anew. -/
def dezVmSteps (host : ℕ → Host) : ℕ → DezVm → Except Fault DezVm
  | 0, vm => return vm
  | n + 1, vm => do
    let vm ← dezVmStep (host 0) vm
    dezVmSteps (fun k => host (k + 1)) n vm

theorem dezVmSteps_ok (host : ℕ → Host) (n : ℕ) (vm : DezVm) :
    ∃ vm', dezVmSteps host n vm = .ok vm' := by
  induction n generalizing host vm with
  | zero => exact ⟨vm, rfl⟩
  | succ n ih =>
    obtain ⟨vm1, h1⟩ := step_ok (host 0) vm
    obtain ⟨vm2, h2⟩ := ih (fun k => host (k + 1)) vm1
    exact ⟨vm2, by simp only [dezVmSteps, h1, ok_bind, h2]⟩

/-- Loading never leaves an array, whatever the file holds. -/
theorem load_ok (host : Host) (vm : DezVm) (file : Option (List Byte)) :
    ∃ vm', dezVmLoadProgram host vm file = .ok vm' := by
  rcases load_cases host vm file with ⟨vm', h, -⟩ | ⟨ws, strings, rfl, h1, h2⟩
  · exact ⟨vm', h⟩
  · exact ⟨_, dezVmLoadProgram_programFile host vm strings h1 h2⟩

/-- Loading any file and running it for any number of steps faults at no array access. -/
theorem load_and_run_in_bounds (host : Host) (debugMode : Bool) (file : Option (List Byte)) :
    ∃ vm, dezVmLoadProgram host (freshVm debugMode) file = .ok vm ∧
      ∀ (hosts : ℕ → Host) (n : ℕ), ∃ vm', dezVmSteps hosts n vm = .ok vm' := by
  obtain ⟨vm, h⟩ := load_ok host (freshVm debugMode) file
  exact ⟨vm, h, fun hosts n => dezVmSteps_ok hosts n vm⟩

end Dez.Machine
