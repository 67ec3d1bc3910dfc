import Dez.Machine.Run

/-! The program of `main.c`: load a file, run it, and tell the shell. -/
namespace Dez.Machine

variable {host : Host} {hosts : ℕ → Host} {vm : DezVm} {ws : List Word} {strings : List Byte}
  {filename : List Byte} {contents : List Byte → Option (List Byte)}

/-- What is printed without a program to run. -/
def usage : List Output :=
  [.printf "Usage: %s <program.dez>\n" [],
    .printf "  program.dez - Dez VM binary program file to execute\n" []]

/-- `main`, on the arguments behind the program's own name: the exit code and what is printed. The
file system gives the contents of each file that can be opened. -/
def main (host : Host) (hosts : ℕ → Host) (contents : List Byte → Option (List Byte))
    (args : List (List Byte)) : Except Fault (ℕ × List Output) :=
  match args with
  | [filename] => do
    let vm ← dezVmLoadProgram host dezVmInit (contents filename)
    if vm.cpu.state = .error then
      return (1, vm.stdout ++ [.printf "Failed to load program: %s\n" []])
    else do
      let vm ← dezVmRun hosts vm
      return (0, vm.stdout)
  | _ => return (1, usage)

/-- The run from a state under hosts that settle each step anew. -/
def runFrom (hosts : ℕ → Host) (vm : DezVm) : Execution where
  host := hosts
  state := Nat.rec vm fun n vm => stepped (hosts n) vm

theorem runFrom_valid (hosts : ℕ → Host) (vm : DezVm) : Valid (runFrom hosts vm) := by
  intro n
  obtain ⟨vm', h⟩ := step_ok (hosts n) ((runFrom hosts vm).state n)
  have hnext : (runFrom hosts vm).state (n + 1) = stepped (hosts n) ((runFrom hosts vm).state n) :=
    rfl
  rw [hnext, stepped, h]
  exact h

/-- A run that is over within the limit is over where `dez_vm_run` leaves it. -/
theorem dezVmRun_stopped {k : ℕ} (hk : k ≤ maxSteps vm)
    (hstop : ((runFrom hosts vm).state k).cpu.state ≠ .running) :
    dezVmRun hosts vm = .ok ((runFrom hosts vm).state k) := by
  have hE := runFrom_valid hosts vm
  rcases leaves_or_runs (runFrom hosts vm) k with ⟨j, hj, hl⟩ | hr
  · have hrun := runLoop_leaves hE hl (show j ≤ maxSteps vm by omega) (Nat.zero_le j)
    rw [state_of_leaves hE hl hj]
    exact hrun
  · exact absurd (hr k le_rfl) hstop

/-- `main` with a file it can load prints what the run prints, and reports no error of the run. -/
theorem main_loaded (host : Host) (hfile : contents filename = some (programFile ws strings))
    (h1 : 1 ≤ ws.length) (h2 : ws.length ≤ 1024) :
    main host hosts contents [filename] =
      (dezVmRun hosts (loadedVm false ws strings)).map fun vm => (0, vm.stdout) := by
  have hload : dezVmLoadProgram host dezVmInit (contents filename) =
      .ok (loadedVm false ws strings) := by
    rw [hfile]
    exact dezVmLoadProgram_programFile _ _ _ h1 h2
  have hno : ¬ (loadedVm false ws strings).cpu.state = .error := DezVmState.noConfusion
  simp only [main, hload, ok_bind, if_neg hno]
  cases dezVmRun hosts (loadedVm false ws strings) with
  | error fault => rfl
  | ok vm => rfl

/-- `main` returns whatever it is given, and its exit code says only whether there was a program to
run: a file whose header counts at least one and at most 1024 words that follow it. -/
theorem main_exit_code (host : Host) (hosts : ℕ → Host) (contents : List Byte → Option (List Byte))
    (args : List (List Byte)) : ∃ code out, main host hosts contents args = .ok (code, out) ∧
      code ≤ 1 ∧
      (code = 0 ↔ ∃ filename ws strings, args = [filename] ∧
        contents filename = some (programFile ws strings) ∧ 1 ≤ ws.length ∧ ws.length ≤ 1024) := by
  by_cases hargs : ∃ filename, args = [filename]
  · obtain ⟨filename, rfl⟩ := hargs
    rcases load_cases host dezVmInit (contents filename) with ⟨vm, hload, hcpu⟩ |
      ⟨ws, strings, hfile, h1, h2⟩
    · have herror : vm.cpu.state = .error := by rw [hcpu]
      refine ⟨1, vm.stdout ++ [.printf "Failed to load program: %s\n" []], ?_, le_rfl,
        iff_of_false Nat.one_ne_zero ?_⟩
      · simp only [main, hload, ok_bind, if_pos herror, pure_eq_ok]
      rintro ⟨filename', ws, strings, hname, hfile, h1, h2⟩
      obtain rfl : filename = filename' := (List.cons.inj hname).1
      rw [hfile, dezVmLoadProgram_programFile _ _ _ h1 h2] at hload
      cases hload
      cases herror
    · obtain ⟨final, hfinal, -⟩ :=
        run_faithful_iff (runFrom_valid hosts (loadedVm false ws strings))
      refine ⟨0, final.stdout, ?_, Nat.zero_le _,
        iff_of_true rfl ⟨filename, ws, strings, rfl, hfile, h1, h2⟩⟩
      rw [main_loaded host hfile h1 h2]
      exact congrArg (Except.map _) hfinal
  · refine ⟨1, usage, ?_, le_rfl, iff_of_false Nat.one_ne_zero ?_⟩
    · unfold main
      split
      · exact absurd ⟨_, rfl⟩ hargs
      · rfl
    · rintro ⟨filename, ws, strings, hname, -⟩
      exact hargs ⟨filename, hname⟩

end Dez.Machine
