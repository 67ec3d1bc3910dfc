import Dez.Machine.Statistics

/-! The word accessors without checks, beside those that check. -/
namespace Dez.Machine

def memoryReadWordFast (mem : DezMemory) (address : Word) : Except Fault Word :=
  mem.memory.read address.toNat

def memoryWriteWordFast (mem : DezMemory) (address value : Word) :
    Except Fault (Int × DezMemory) := do
  let cells ← mem.memory.write address.toNat value
  return (0, { mem with memory := cells })

/-- A call with the fast accessors in place of the checked ones. -/
def MemoryCall.runFast (mem : DezMemory) :
    MemoryCall → Except Fault (MemoryAnswer × DezMemory)
  | readWord address => do
    let value ← memoryReadWordFast mem address
    return (.word value [], mem)
  | writeWord address value => do
    let (result, mem) ← memoryWriteWordFast mem address value
    return (.code result [], mem)
  | call => call.run false mem

def runCallsFast : List MemoryCall → DezMemory → Except Fault (List MemoryAnswer × DezMemory)
  | [], mem => return ([], mem)
  | call :: calls, mem => do
    let (answer, mem) ← call.runFast mem
    let (answers, mem) ← runCallsFast calls mem
    return (answer :: answers, mem)

/-- The checks of the word accessors let the call pass. -/
def MemoryCall.Passes (mem : DezMemory) : MemoryCall → Prop
  | readWord address => address.toNat < 4096
  | writeWord address _ => mem.Accepts address
  | _ => True

/-- They let every call of a run pass. -/
def AllPass : List MemoryCall → DezMemory → Prop
  | [], _ => True
  | call :: calls, mem => call.Passes mem ∧
      ∀ answer mem', call.run false mem = .ok (answer, mem') → AllPass calls mem'

variable {mem mem' mem'' : DezMemory} {call : MemoryCall} {answer answer' : MemoryAnswer}

/-- A call always returns, with an answer and a memory. -/
theorem run_returns (mem : DezMemory) (call : MemoryCall) :
    ∃ answer mem', call.run false mem = .ok (answer, mem') := by
  cases call with
  | readWord a =>
    simp only [MemoryCall.run, memoryReadWord, Bool.false_eq_true, if_false]
    by_cases ha : a.toNat < 4096
    · simp only [ha, if_true, CArray.read_of_lt _ ha]
      exact ⟨_, _, rfl⟩
    · simp only [ha, if_false, memoryIsValidAddress, decide_false, Bool.not_false, if_true]
      exact ⟨_, _, rfl⟩
  | writeWord a v =>
    simp only [MemoryCall.run, Bool.false_eq_true, if_false, memoryWriteWord_eq]
    split <;> exact ⟨_, _, rfl⟩
  | readByte a =>
    obtain ⟨c, out, hread, -⟩ := readByte_uncounted mem a
    simp only [MemoryCall.run, hread]
    exact ⟨_, _, rfl⟩
  | writeByte a c =>
    obtain ⟨r, mem', out, hwrite, -⟩ := writeByte_uncounted mem a c
    simp only [MemoryCall.run, hwrite]
    exact ⟨_, _, rfl⟩
  | setProtection segment readonly => exact ⟨_, _, rfl⟩

theorem runCalls_returns (calls : List MemoryCall) (mem : DezMemory) :
    ∃ answers mem', runCalls false calls mem = .ok (answers, mem') := by
  induction calls generalizing mem with
  | nil => exact ⟨[], mem, rfl⟩
  | cons call calls ih =>
    obtain ⟨answer, next, hrun⟩ := run_returns mem call
    obtain ⟨answers, last, hruns⟩ := ih next
    refine ⟨answer :: answers, last, ?_⟩
    simp only [runCalls, hrun, ok_bind, hruns]
    rfl

/-- A call that the checks let pass needs none. -/
theorem runFast_of_passes (h : call.Passes mem) : call.runFast mem = call.run false mem := by
  cases call with
  | readWord a =>
    have ha : a.toNat < 4096 := h
    simp only [MemoryCall.runFast, MemoryCall.run, memoryReadWordFast, memoryReadWord_of_lt ha,
      Bool.false_eq_true, if_false, CArray.read_of_lt _ ha, DezMemory.word_of_lt ha]
    rfl
  | writeWord a v =>
    have hacc : mem.Accepts a := h
    have hput : mem.put a.toNat v = { mem with memory := mem.memory.set ⟨a.toNat, hacc.1⟩ v } :=
      dif_pos hacc.1
    simp only [MemoryCall.runFast, MemoryCall.run, memoryWriteWordFast, memoryWriteWord_eq, hacc,
      Bool.false_eq_true, if_false, if_true, CArray.write_of_lt _ hacc.1, hput]
    rfl
  | _ => rfl

/-- Where a check fails, the fast accessor goes wrong or says that it did not. -/
theorem runFast_of_not_passes (h : ¬ call.Passes mem)
    (hrun : call.run false mem = .ok (answer, mem'))
    (hfast : call.runFast mem = .ok (answer', mem'')) : answer' ≠ answer := by
  cases call with
  | readWord a =>
    have ha : ¬ a.toNat < 4096 := h
    have hfault : mem.memory.read a.toNat = .error (.outOfBounds 4096 a.toNat) := dif_neg ha
    simp only [MemoryCall.runFast, memoryReadWordFast, hfault] at hfast
    cases hfast
  | writeWord a v =>
    have hacc : ¬ mem.Accepts a := h
    obtain ⟨⟨result, fast⟩, hwrite, hresult⟩ := bind_eq_ok hfast
    obtain ⟨cells, -, hcells⟩ := bind_eq_ok hwrite
    simp only [MemoryCall.run, Bool.false_eq_true, if_false, memoryWriteWord_eq, hacc] at hrun
    cases hcells
    cases hresult
    cases hrun
    intro hsame
    injection hsame with hcode
    omega
  | _ => exact absurd trivial h

/-- Calls of the word accessors without checks return the same and leave the same memory as the
checked ones exactly if no check of the run fails. -/
theorem fast_path_agrees_iff (calls : List MemoryCall) (mem : DezMemory) :
    runCallsFast calls mem = runCalls false calls mem ↔ AllPass calls mem := by
  induction calls generalizing mem with
  | nil => exact iff_true_intro rfl
  | cons call calls ih =>
    obtain ⟨answer, mem', hrun⟩ := run_returns mem call
    obtain ⟨answers, last, hruns⟩ := runCalls_returns calls mem'
    simp only [runCallsFast, runCalls, hrun, ok_bind, hruns]
    constructor
    · intro h
      obtain ⟨⟨fast, next⟩, hfast, hrest⟩ := bind_eq_ok h
      obtain ⟨⟨fasts, final⟩, hfasts, hall⟩ := bind_eq_ok hrest
      obtain ⟨⟨rfl, rfl⟩, rfl⟩ : (fast = answer ∧ fasts = answers) ∧ final = last := by
        simpa using hall
      have hpasses : call.Passes mem := by
        by_contra hno
        exact runFast_of_not_passes hno hrun hfast rfl
      rw [runFast_of_passes hpasses, hrun] at hfast
      cases hfast
      refine ⟨hpasses, fun answer' again hagain => ?_⟩
      rw [hrun] at hagain
      cases hagain
      exact (ih mem').mp (hfasts.trans hruns.symm)
    · rintro ⟨hpasses, hrest⟩
      have hfasts := (ih mem').mpr (hrest answer mem' hrun)
      simp only [runFast_of_passes hpasses, hrun, ok_bind, hfasts, hruns]

end Dez.Machine
