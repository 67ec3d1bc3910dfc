import Dez.Machine.Boot

/-! `dez_vm_run`: stepping until the machine leaves its running state or the step limit is hit. -/
namespace Dez.Machine

/-- `MAX_STEPS` -/
def maxSteps (vm : DezVm) : ℕ := if vm.debugMode then 10000 else 100000

/-- What is printed when the limit is hit. -/
def tooManySteps (stepCount : ℕ) : Output :=
  .printf "Error: Too many steps (%d), possible infinite loop\n" [BitVec.ofNat 32 stepCount]

/-- The loop of `dez_vm_run`; the host settles each step's undefined operations anew. -/
def runLoop (host : ℕ → Host) (limit stepCount : ℕ) (vm : DezVm) : Except Fault DezVm :=
  if vm.cpu.state ≠ .running then return vm
  else do
    let vm ← dezVmStep (host stepCount) vm
    if stepCount + 1 > limit then return vm.fail (tooManySteps (stepCount + 1))
    else runLoop host limit (stepCount + 1) vm
termination_by limit + 1 - stepCount

def dezVmRun (host : ℕ → Host) (vm : DezVm) : Except Fault DezVm :=
  runLoop host (maxSteps vm) 0 vm

/-- The run first leaves its running state after `k` steps. -/
def Leaves (E : Execution) (k : ℕ) : Prop :=
  (E.state k).cpu.state ≠ .running ∧ ∀ j < k, (E.state j).cpu.state = .running

variable {E : Execution} {k n limit : ℕ}

theorem runLoop_stop {vm : DezVm} {host : ℕ → Host} (h : vm.cpu.state ≠ .running) :
    runLoop host limit n vm = .ok vm := by
  rw [runLoop, if_pos h, pure_eq_ok]

/-- One turn of the loop, as long as the machine runs. -/
theorem runLoop_turn (hE : Valid E) (hr : (E.state n).cpu.state = .running) :
    runLoop E.host limit n (E.state n) =
      if n + 1 > limit then .ok ((E.state (n + 1)).fail (tooManySteps (n + 1)))
      else runLoop E.host limit (n + 1) (E.state (n + 1)) := by
  rw [runLoop, if_neg (not_not_intro hr), hE n, ok_bind]
  rfl

/-- The loop stops where the run leaves its running state, within the limit. -/
theorem runLoop_leaves (hE : Valid E) (hl : Leaves E k) (hk : k ≤ limit) (hn : n ≤ k) :
    runLoop E.host limit n (E.state n) = .ok (E.state k) := by
  induction hn using Nat.decreasingInduction with
  | self => exact runLoop_stop hl.1
  | of_succ n hn ih =>
    rw [runLoop_turn hE (hl.2 n hn), if_neg (by omega)]
    exact ih

/-- A run that is still going at the limit takes one more step and ends in the error. -/
theorem runLoop_limit (hE : Valid E) (hr : ∀ j ≤ limit, (E.state j).cpu.state = .running)
    (hn : n ≤ limit) : runLoop E.host limit n (E.state n) =
      .ok ((E.state (limit + 1)).fail (tooManySteps (limit + 1))) := by
  induction hn using Nat.decreasingInduction with
  | self => rw [runLoop_turn hE (hr limit le_rfl), if_pos (Nat.lt_succ_self _)]
  | of_succ n hn ih =>
    rw [runLoop_turn hE (hr n hn.le), if_neg (by omega)]
    exact ih

/-- A run leaves its running state within some number of steps, or runs all of them. -/
theorem leaves_or_runs (E : Execution) (limit : ℕ) :
    (∃ k ≤ limit, Leaves E k) ∨ ∀ j ≤ limit, (E.state j).cpu.state = .running := by
  by_cases h : ∃ k, (E.state k).cpu.state ≠ .running
  · have hleaves : Leaves E (Nat.find h) :=
      ⟨Nat.find_spec h, fun j hj => not_not.mp (Nat.find_min h hj)⟩
    rcases Nat.lt_or_ge limit (Nat.find h) with hlt | hge
    · exact .inr fun j hj => hleaves.2 j (by omega)
    · exact .inl ⟨_, hge, hleaves⟩
  · push Not at h
    exact .inr fun j _ => h j

/-- A run leaves its running state only once. -/
theorem Leaves.unique {m : ℕ} (hk : Leaves E k) (hm : Leaves E m) : k = m := by
  rcases Nat.lt_trichotomy k m with h | h | h
  · exact absurd (hm.2 k h) hk.1
  · exact h
  · exact absurd (hk.2 m h) hm.1

/-- Outside its running state the machine stands still. -/
theorem state_of_leaves (hE : Valid E) (hl : Leaves E k) (hn : k ≤ n) : E.state n = E.state k := by
  induction n, hn using Nat.le_induction with
  | base => rfl
  | succ n _ ih =>
    rcases step_cases (hE n) with ⟨-, hs⟩ | ⟨hr, -⟩ | ⟨he, -⟩
    · exact hs.trans ih
    · exact absurd (ih ▸ hr) hl.1
    · exact absurd (ih ▸ he.1) hl.1

/-- What `dez_vm_run` leaves says what stepping does: a run that is over within the steps it takes
ends in its own last state, the limit is reported only where the program still runs, and a program
that halted is never in error. -/
structure RunFaithful (E : Execution) (final : DezVm) : Prop where
  iterate : ∀ k ≤ maxSteps (E.state 0) + 1, Leaves E k → final = E.state k
  limit : final =
      (E.state (maxSteps (E.state 0) + 1)).fail (tooManySteps (maxSteps (E.state 0) + 1)) →
    (E.state (maxSteps (E.state 0) + 1)).cpu.state = .running
  halted : ∀ k ≤ maxSteps (E.state 0) + 1, (E.state k).cpu.state = .halted →
    final.cpu.state ≠ .error

theorem stdout_fail (vm : DezVm) (out : Output) : (vm.fail out).stdout = vm.stdout ++ [out] := rfl

theorem state_fail (vm : DezVm) (out : Output) : (vm.fail out).cpu.state = .error := rfl

theorem fail_ne_self (vm : DezVm) (out : Output) : vm ≠ vm.fail out := by
  intro h
  have hlen := congrArg (fun vm : DezVm => vm.stdout.length) h
  simp [stdout_fail] at hlen

/-- A run that is over within the limit is reported as it ended. -/
theorem runFaithful_of_leaves (hE : Valid E) (hl : Leaves E k) (hk : k ≤ maxSteps (E.state 0)) :
    RunFaithful E (E.state k) where
  iterate j _ hj := by rw [hl.unique hj]
  limit h := by
    rw [state_of_leaves hE hl (show k ≤ maxSteps (E.state 0) + 1 by omega)] at h
    exact absurd h (fail_ne_self _ _)
  halted j _ hj := by
    have hle : k ≤ j := by
      by_contra hlt
      rw [hl.2 j (by omega)] at hj
      cases hj
    rw [state_of_leaves hE hl hle] at hj
    simp [hj]

theorem runFaithful_at_limit (hr : ∀ j ≤ maxSteps (E.state 0), (E.state j).cpu.state = .running) :
    RunFaithful E ((E.state (maxSteps (E.state 0) + 1)).fail
        (tooManySteps (maxSteps (E.state 0) + 1))) ↔
      ¬ Leaves E (maxSteps (E.state 0) + 1) := by
  constructor
  · intro h hl
    exact fail_ne_self _ _ (h.iterate _ le_rfl hl).symm
  · intro h
    have hlast : (E.state (maxSteps (E.state 0) + 1)).cpu.state = .running := by
      by_contra hne
      exact h ⟨hne, fun j hj => hr j (by omega)⟩
    have hall : ∀ j ≤ maxSteps (E.state 0) + 1, (E.state j).cpu.state = .running := by
      intro j hj
      rcases Nat.lt_or_ge (maxSteps (E.state 0)) j with hlt | hge
      · rwa [show j = maxSteps (E.state 0) + 1 by omega]
      · exact hr j hge
    refine ⟨fun j hj hl => absurd (hall j hj) hl.1, fun _ => hlast, fun j hj hhalt => ?_⟩
    rw [hall j hj] at hhalt
    cases hhalt

/-- `dez_vm_run` ends outside the running state, in a state that says what stepping does unless the
program ends with the very step in which the count passes the limit. -/
theorem run_faithful_iff (hE : Valid E) :
    ∃ final, dezVmRun E.host (E.state 0) = .ok final ∧ final.cpu.state ≠ .running ∧
      (RunFaithful E final ↔ ¬ Leaves E (maxSteps (E.state 0) + 1)) := by
  rcases leaves_or_runs E (maxSteps (E.state 0)) with ⟨k, hk, hl⟩ | hr
  · refine ⟨E.state k, runLoop_leaves hE hl hk (Nat.zero_le k), hl.1, ?_⟩
    exact iff_of_true (runFaithful_of_leaves hE hl hk) fun h => by
      have := hl.unique h
      omega
  · refine ⟨_, runLoop_limit hE hr (Nat.zero_le _), ?_, runFaithful_at_limit hr⟩
    simp [state_fail]

theorem run_faithful_iff_nop : ∃ final, dezVmRun (fun _ => zeroHost)
      (loadedVm false [0x12000000#32] []) = .ok final ∧ final.cpu.state ≠ .running ∧
    (RunFaithful (execution zeroHost (loadedVm false [0x12000000#32] [])) final ↔
      ¬ Leaves (execution zeroHost (loadedVm false [0x12000000#32] []))
        (maxSteps (loadedVm false [0x12000000#32] []) + 1)) :=
  run_faithful_iff (execution_valid zeroHost (loadedVm false [0x12000000#32] []))

section late

/-- A program that counts register 0 down from 33332 in rounds of three steps, four steps after its
start, and halts: `MOV R0, 641`, `MUL R0, R0, 52`, two `NOP`s, and a loop of `DEC R0`, `CMP R0, 0`
and `JNZ` before the `HALT`. -/
def lateCode : List Word :=
  [0x10000281#32, 0x06000834#32, 0x12000000#32, 0x12000000#32, 0x1E000000#32, 0x0E000000#32,
    0x0A000004#32, 0x00000000#32]

/-- A running state of the program. -/
def late (regs : CArray Word 16) (pc flags : Word) : DezVm :=
  { loadedVm false lateCode [] with
    cpu := { regs := regs, pc := pc, sp := 0xFFF, flags := flags, state := .running } }

variable (regs : CArray Word 16) (flags : Word)

theorem stepped_late {pc w : Word} {t : DezInstructionType} (hpc : pc.toNat < 4096)
    (hw : (loadedVm false lateCode []).memory.word pc.toNat = w) (ht : instructionOf w = some t) :
    stepped zeroHost (late regs pc flags) =
      ((instructionEffect zeroHost (late regs pc flags) w t).perform
        (late regs pc flags)).advance pc (instructionTable t).pcIncrement := by
  have hf : (late regs pc flags).fetched = w := hw
  have hr : (late regs pc flags).Runs t := ⟨⟨rfl, hpc⟩, by rw [hf, ht]⟩
  have htrace : (late regs pc flags).traced = late regs pc flags := DezVm.print_nil _
  rw [stepped, step_runs hr, hf, htrace]
  rfl

theorem late_dec : stepped zeroHost (late regs 4 flags) =
    late (regs.set 0 (regs 0 - 1#32)) 5 flags := by
  rw [stepped_late (w := 0x1E000000#32) (t := .dec) regs flags (by decide) rfl (by decide)]
  rfl

theorem late_cmp : stepped zeroHost (late regs 5 flags) =
    late regs 6 (compareFlags (regs 0) 0#32) := by
  rw [stepped_late (w := 0x0E000000#32) (t := .cmp) regs flags (by decide) rfl (by decide)]
  rfl

theorem late_jnz_taken : stepped zeroHost (late regs 6 flagGreater) = late regs 4 flagGreater := by
  have hjump : instructionEffect zeroHost (late regs 6 flagGreater) 0x0A000004#32 .jnz =
      .jump 4#32 := if_pos (by decide : (!((flagGreater &&& flagZero) != 0)) = true)
  rw [stepped_late (w := 0x0A000004#32) (t := .jnz) regs _ (by decide) rfl (by decide), hjump]
  rfl

theorem late_jnz_over : stepped zeroHost (late regs 6 (flagEqual ||| flagZero)) =
    late regs 7 (flagEqual ||| flagZero) := by
  have hover :
      instructionEffect zeroHost (late regs 6 (flagEqual ||| flagZero)) 0x0A000004#32 .jnz =
        .print [] := if_neg (by decide : ¬ (!(((flagEqual ||| flagZero) &&& flagZero) != 0)) = true)
  rw [stepped_late (w := 0x0A000004#32) (t := .jnz) regs _ (by decide) rfl (by decide), hover]
  rfl

/-- The four steps before the loop. -/
theorem late_start :
    ∃ regs, (stepped zeroHost)^[4] (loadedVm false lateCode []) = late regs 4 0#32 ∧
      regs 0 = 33332#32 := by
  obtain ⟨regs, hinit⟩ : ∃ regs, loadedVm false lateCode [] = late regs 0 0#32 :=
    ⟨fun _ => 0#32, rfl⟩
  have hmov : stepped zeroHost (late regs 0 0#32) = late (regs.set 0 641#32) 1 0#32 := by
    rw [stepped_late (w := 0x10000281#32) (t := .mov) _ _ (by decide) rfl (by decide)]
    rfl
  have hmul : stepped zeroHost (late (regs.set 0 641#32) 1 0#32) =
      late ((regs.set 0 641#32).set 0 (641#32 * 52#32)) 2 0#32 := by
    rw [stepped_late (w := 0x06000834#32) (t := .mul) _ _ (by decide) rfl (by decide)]
    rfl
  have hnop (regs : CArray Word 16) : stepped zeroHost (late regs 2 0#32) = late regs 3 0#32 := by
    rw [stepped_late (w := 0x12000000#32) (t := .nop) _ _ (by decide) rfl (by decide)]
    rfl
  have hnop' (regs : CArray Word 16) : stepped zeroHost (late regs 3 0#32) = late regs 4 0#32 := by
    rw [stepped_late (w := 0x12000000#32) (t := .nop) _ _ (by decide) rfl (by decide)]
    rfl
  refine ⟨(regs.set 0 641#32).set 0 (641#32 * 52#32), ?_, ?_⟩
  rotate_left 1
  · rw [CArray.set_self]
    decide
  simp only [Function.iterate_succ_apply, Function.iterate_zero_apply, hinit, hmov, hmul, hnop,
    hnop']

/-- A round of the loop, as long as the counter does not reach zero. -/
theorem late_round (h : regs 0 - 1#32 ≠ 0#32) :
    (stepped zeroHost)^[3] (late regs 4 flags) =
      late (regs.set 0 (regs 0 - 1#32)) 4 flagGreater := by
  have hcmp : compareFlags (regs.set 0 (regs 0 - 1#32) 0) 0#32 = flagGreater := by
    simp [compareFlags, h]
  simp only [Function.iterate_succ_apply, Function.iterate_zero_apply, late_dec, late_cmp, hcmp,
    late_jnz_taken]

theorem late_last (h : regs 0 - 1#32 = 0#32) :
    ∃ regs' flags', (stepped zeroHost)^[3] (late regs 4 flags) = late regs' 7 flags' := by
  have hcmp : compareFlags (regs.set 0 (regs 0 - 1#32) 0) 0#32 = flagEqual ||| flagZero := by
    simp [compareFlags, h]
  simp only [Function.iterate_succ_apply, Function.iterate_zero_apply, late_dec, late_cmp, hcmp,
    late_jnz_over]
  exact ⟨_, _, rfl⟩

theorem late_rounds {n : ℕ} (h : n < (regs 0).toNat) :
    ∃ regs' flags', (stepped zeroHost)^[3 * n] (late regs 4 flags) = late regs' 4 flags' ∧
      regs' 0 = regs 0 - BitVec.ofNat 32 n := by
  induction n with
  | zero => exact ⟨regs, flags, rfl, (BitVec.sub_zero _).symm⟩
  | succ n ih =>
    obtain ⟨regs', flags', hn, hreg⟩ := ih (by omega)
    have hne : regs' 0 - 1#32 ≠ 0#32 := by
      rw [hreg]
      bv_omega
    refine ⟨regs'.set 0 (regs' 0 - 1#32), flagGreater, ?_, ?_⟩
    · rw [show 3 * (n + 1) = 3 + 3 * n by ring, Function.iterate_add_apply, hn, late_round _ _ hne]
    · rw [CArray.set_self, hreg, BitVec.sub_sub, BitVec.ofNat_add]

/-- The program halts with step 100001. -/
theorem late_leaves : Leaves (execution zeroHost (loadedVm false lateCode [])) 100001 ∧
    ((execution zeroHost (loadedVm false lateCode [])).state 100001).cpu.state = .halted := by
  obtain ⟨regs, hstart, hreg⟩ := late_start
  obtain ⟨regs', flags', hrounds, hreg'⟩ :=
    late_rounds regs 0#32 (n := 33331) (by rw [hreg]; decide)
  obtain ⟨regs'', flags'', hlast⟩ := late_last regs' flags' (by rw [hreg', hreg]; decide)
  have hbefore :
      (stepped zeroHost)^[100000] (loadedVm false lateCode []) = late regs'' 7 flags'' := by
    rw [show 100000 = 3 + (3 * 33331 + 4) from rfl, Function.iterate_add_apply,
      Function.iterate_add_apply, hstart, hrounds, hlast]
  have hhalt : (stepped zeroHost (late regs'' 7 flags'')).cpu.state = .halted := by
    rw [stepped_late (w := 0#32) (t := .halt) _ _ (by decide) rfl (by decide)]
    rfl
  have hhalted : ((execution zeroHost (loadedVm false lateCode [])).state 100001).cpu.state =
      .halted := by
    rw [state_execution, Function.iterate_succ_apply', hbefore, hhalt]
  refine ⟨⟨by rw [hhalted]; decide, ?_⟩, hhalted⟩
  rcases leaves_or_runs (execution zeroHost (loadedVm false lateCode [])) 100000 with
    ⟨k, hk, hl⟩ | hr
  · have hstill := state_of_leaves (execution_valid _ _) hl hk
    have hrun : ((execution zeroHost (loadedVm false lateCode [])).state 100000).cpu.state =
        .running := by
      rw [state_execution, hbefore]
      rfl
    exact absurd (hstill ▸ hrun) hl.1
  · intro j hj
    exact hr j (by omega)

/-- The program halts, and `dez_vm_run` reports an error. -/
theorem late_halt_reported :
    ¬ ∀ E, Valid E → ∀ final, dezVmRun E.host (E.state 0) = .ok final → RunFaithful E final := by
  intro h
  obtain ⟨hl, -⟩ := late_leaves
  obtain ⟨final, hfinal, -, hiff⟩ := run_faithful_iff (execution_valid zeroHost
    (loadedVm false lateCode []))
  exact hiff.mp (h _ (execution_valid _ _) final hfinal) hl

end late

end Dez.Machine
