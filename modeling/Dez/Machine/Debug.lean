import Dez.Machine.Frame
import Dez.Machine.Run

/-! `debug_mode` adds the traces to what is printed and changes nothing else. -/
namespace Dez.Machine

variable {E E' : Execution} {host : Host} {vm vm' : DezVm} {debugMode : Bool} {out : List Output}

/-- The machine with another debug mode and another output so far. -/
def DezVm.shown (vm : DezVm) (debugMode : Bool) (out : List Output) : DezVm :=
  { vm with debugMode := debugMode, stdout := out }

/-- What an effect prints. -/
def Effect.printed (vm : DezVm) : Effect → List Output
  | print out => out
  | fail out => [out]
  | halt out => out
  | store a _ => vm.memory.refused a
  | push _ => vm.memory.refused vm.cpu.sp
  | call _ => vm.memory.refused vm.cpu.sp
  | _ => []

/-- The debug line of the next step. -/
def DezVm.trace (vm : DezVm) : List Output :=
  if vm.Executes then [.printf "PC: %04X, Instruction: %08X\n" [vm.cpu.pc, vm.fetched]] else []

/-- What the next step prints without its debug line. -/
def stepPrinted (host : Host) (vm : DezVm) : List Output :=
  if vm.Executes then (effect host vm vm.fetched).printed vm
  else if vm.cpu.state = .running then [.printf "Error: Program counter out of bounds\n" []]
  else []

theorem perform_stdout (e : Effect) (vm : DezVm) :
    (e.perform vm).stdout = vm.stdout ++ e.printed vm := by
  cases e with
  | print | fail | halt | store | push | call => rfl
  | setReg | setFlags | jump | assign | pop | ret => exact (List.append_nil _).symm

theorem perform_shown (e : Effect) (vm : DezVm) (debugMode : Bool) (out : List Output) :
    e.perform (vm.shown debugMode out) = (e.perform vm).shown debugMode (out ++ e.printed vm) := by
  cases e with
  | print | fail | halt | store | push | call => rfl
  | setReg | setFlags | jump | assign | pop | ret =>
    rw [Effect.printed, List.append_nil]
    · rfl
    all_goals simp

theorem advance_shown (vm : DezVm) (debugMode : Bool) (out : List Output) (oldPc increment : Word) :
    (vm.shown debugMode out).advance oldPc increment =
      (vm.advance oldPc increment).shown debugMode out := by
  unfold DezVm.advance
  have hpc : (vm.shown debugMode out).cpu.pc = vm.cpu.pc := rfl
  rw [hpc]
  split <;> rfl

theorem advance_stdout (vm : DezVm) (oldPc increment : Word) :
    (vm.advance oldPc increment).stdout = vm.stdout := by
  unfold DezVm.advance
  split <;> rfl

theorem executes_shown : (vm.shown debugMode out).Executes ↔ vm.Executes := Iff.rfl

/-- One step under another debug mode does the same, and prints the same behind the debug line. -/
theorem step_shown (h : dezVmStep host vm = .ok vm') (hoff : vm.debugMode = false)
    (debugMode : Bool) (out : List Output) :
    dezVmStep host (vm.shown debugMode out) = .ok (vm'.shown debugMode
        (out ++ ((if debugMode then vm.trace else []) ++ stepPrinted host vm))) ∧
      vm'.stdout = vm.stdout ++ stepPrinted host vm ∧ vm'.debugMode = false := by
  unfold DezVm.trace stepPrinted
  rcases step_cases h with ⟨hs, rfl⟩ | ⟨hr, hpc, rfl⟩ | ⟨he, rfl⟩
  · have hno : ¬ vm'.Executes := fun he => hs he.1
    obtain ⟨other, hother⟩ := step_ok host (vm'.shown debugMode out)
    rw [if_neg hno, if_neg hno, if_neg hs]
    refine ⟨?_, (List.append_nil _).symm, hoff⟩
    rcases step_cases hother with ⟨-, rfl⟩ | ⟨hrun, -⟩ | ⟨he, -⟩
    · simpa using hother
    · exact absurd hrun hs
    · exact absurd he.1 hs
  · have hno : ¬ vm.Executes := fun he => by
      have := he.2
      omega
    obtain ⟨other, hother⟩ := step_ok host (vm.shown debugMode out)
    rw [if_neg hno, if_neg hno, if_pos hr]
    refine ⟨?_, rfl, hoff⟩
    rcases step_cases hother with ⟨hs, -⟩ | ⟨-, -, rfl⟩ | ⟨he, -⟩
    · exact absurd hr hs
    · cases debugMode <;> exact hother
    · exact absurd he hno
  · have htraced : (vm.shown debugMode out).traced =
        vm.traced.shown debugMode (out ++ if debugMode then
          [.printf "PC: %04X, Instruction: %08X\n" [vm.cpu.pc, vm.fetched]] else []) := rfl
    have heffect : effect host (vm.shown debugMode out) (vm.shown debugMode out).fetched =
        effect host vm vm.fetched := rfl
    have hquiet : vm.traced = vm := by
      rw [DezVm.traced, hoff]
      exact DezVm.print_nil vm
    rw [if_pos he, if_pos he]
    refine ⟨?_, ?_, ?_⟩
    · rw [dezVmStep_executes (executes_shown.mpr he), next, htraced, heffect, perform_shown,
        advance_shown, List.append_assoc, next, hquiet]
      rfl
    · rw [next, advance_stdout, perform_stdout, hquiet]
    · rw [next, advance_debugMode, perform_debugMode, hquiet]
      exact hoff

/-- In every run the debug mode adds each step's trace in front of what the step prints, and nothing
else differs; a program that stops within 10000 steps ends the same in both modes. -/
theorem debug_mode_only_traces (hE : Valid E) (hE' : Valid E') (hhost : E'.host = E.host)
    (hoff : (E.state 0).debugMode = false)
    (h0 : E'.state 0 = (E.state 0).shown true (E.state 0).stdout) :
    ∃ printed : ℕ → List Output, (∀ n,
      (E.state n).stdout = (E.state 0).stdout ++ (List.range n).flatMap printed ∧
      E'.state n = (E.state n).shown true ((E.state 0).stdout ++
        (List.range n).flatMap fun k => (E.state k).trace ++ printed k)) ∧
    ∀ k ≤ 10000, Leaves E k → dezVmRun E.host (E.state 0) = .ok (E.state k) ∧
      dezVmRun E.host (E'.state 0) = .ok ((E.state k).shown true ((E.state 0).stdout ++
        (List.range k).flatMap fun k => (E.state k).trace ++ printed k)) := by
  have hrun : ∀ n, (E.state n).debugMode = false ∧
      (E.state n).stdout = (E.state 0).stdout ++
        (List.range n).flatMap (fun k => stepPrinted (E.host k) (E.state k)) ∧
      E'.state n = (E.state n).shown true ((E.state 0).stdout ++
        (List.range n).flatMap fun k =>
          (E.state k).trace ++ stepPrinted (E.host k) (E.state k)) := by
    intro n
    induction n with
    | zero =>
      refine ⟨hoff, (List.append_nil _).symm, h0.trans ?_⟩
      exact congrArg ((E.state 0).shown true) (List.append_nil _).symm
    | succ n ih =>
      obtain ⟨hn, hout, hstate⟩ := ih
      obtain ⟨hstep, hstdout, hnext⟩ := step_shown (hE n) hn true ((E.state 0).stdout ++
        (List.range n).flatMap fun k => (E.state k).trace ++ stepPrinted (E.host k) (E.state k))
      have hE'n := hE' n
      rw [hstate, hhost, hstep] at hE'n
      refine ⟨hnext, ?_, ?_⟩
      · rw [hstdout, hout, List.range_succ, List.flatMap_append, List.append_assoc]
        simp
      · rw [← Except.ok.inj hE'n, List.range_succ, List.flatMap_append, List.append_assoc]
        simp
  refine ⟨fun k => stepPrinted (E.host k) (E.state k), fun n => (hrun n).2, ?_⟩
  intro k hk hl
  have hsame : ∀ n, (E'.state n).cpu = (E.state n).cpu := fun n => by rw [(hrun n).2.2]; rfl
  have hl' : Leaves E' k := by
    unfold Leaves
    simp only [hsame]
    exact hl
  have hlimit : k ≤ maxSteps (E.state 0) := by
    rw [maxSteps, hoff]
    exact hk.trans (by decide)
  have hlimit' : k ≤ maxSteps (E'.state 0) := by
    rw [h0]
    exact hk
  constructor
  · exact runLoop_leaves hE hl hlimit (Nat.zero_le k)
  · rw [← (hrun k).2.2, ← hhost]
    exact runLoop_leaves hE' hl' hlimit' (Nat.zero_le k)

/-- A machine in front of a `HALT`. -/
def oneHalt : DezVm := loadedVm false [0#32] []

theorem debug_mode_only_traces_oneHalt : ∃ trace : List Output,
    dezVmRun (fun _ => zeroHost) oneHalt = .ok ((execution zeroHost oneHalt).state 1) ∧
    dezVmRun (fun _ => zeroHost) (oneHalt.shown true []) =
      .ok (((execution zeroHost oneHalt).state 1).shown true trace) := by
  have hleaves : Leaves (execution zeroHost oneHalt) 1 := by
    refine ⟨by decide, fun j hj => ?_⟩
    obtain rfl : j = 0 := by omega
    rfl
  obtain ⟨printed, -, hend⟩ := debug_mode_only_traces (execution_valid zeroHost oneHalt)
    (execution_valid zeroHost (oneHalt.shown true [])) rfl rfl rfl
  exact ⟨_, hend 1 (by decide) hleaves⟩

end Dez.Machine
