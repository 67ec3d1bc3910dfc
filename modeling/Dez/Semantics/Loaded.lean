import Dez.Machine.Main
import Dez.Semantics.Refinement

/-! A program file, run from the command line, does what its instructions mean. -/
namespace Dez.Semantics
open Machine

variable {program : List Instr} {s t : State} {ws : List Word} {strings : List Byte}
  {debugMode : Bool}

/-- The memory that the machine starts a program file with. -/
def loadedWord (ws : List Word) (strings : List Byte) : ℕ → Word :=
  (loadedMemory memoryInit ws strings).word

/-- The front of the loaded memory is the program; what stands behind it is data. -/
structure StartsWith (ws : List Word) (strings : List Byte) (program : List Instr) : Prop where
  small : program.length ≤ 1024
  code : ∀ i (h : i < program.length), decode (loadedWord ws strings i) = program[i]

/-- The machine starts where the program does. -/
theorem loaded_represents (h : StartsWith ws strings program) :
    Represents program (start (loadedWord ws strings)) (loadedVm false ws strings) where
  shows :=
    { small := h.small
      registers := fun _ => rfl
      flags := rfl
      stack := BoundedStack.holds_empty ..
      code := h.code
      data := fun _ _ => rfl
      status := rfl
      stdout := rfl
      guarded := protected_loadedMemory ws strings
      silent := rfl }
  pc := fun _ => rfl

/-- Each run of a program file stays with the program for as long as the program has a meaning. -/
theorem loaded_run_represents {E : Execution} (hE : Valid E) (h : StartsWith ws strings program)
    (h0 : E.state 0 = loadedVm false ws strings) {n : ℕ}
    (hn : runFor (next program) n (start (loadedWord ws strings)) = some s) :
    Represents program s (E.state n) := by
  apply run_represents hE _ hn
  rw [h0]
  exact loaded_represents h

/-- `MOV R1, 5` and `HALT`. -/
def twoWords : List Word := [0x10100005#32, 0#32]

theorem loaded_run_represents_two : ∃ s : State,
    s.regs 1 = 5#32 ∧ s.status = .halted ∧ Represents [.mov 1 5#32, .halt] s
      ((runFrom (fun _ => zeroHost) (loadedVm false twoWords [])).state 2) := by
  have hstarts : StartsWith twoWords [] [.mov 1 5#32, .halt] := by
    have h0 : decode (loadedWord twoWords [] 0) = .mov 1 5#32 := by decide
    have h1 : decode (loadedWord twoWords [] 1) = .halt := by decide
    refine ⟨by decide, fun i hi => ?_⟩
    match i, hi with
    | 0, _ => exact h0
    | 1, _ => exact h1
  have hrep := loaded_run_represents
    (runFrom_valid (fun _ => zeroHost) (loadedVm false twoWords []))
    hstarts rfl (n := 2) rfl
  exact ⟨_, rfl, rfl, hrep⟩

end Dez.Semantics
