import Dez.Semantics.Program
import Dez.Machine.Jumps
import Dez.Machine.Stack

/-! The machine runs a loaded program as its meaning says. -/
namespace Dez.Semantics
open Machine
open BoundedStack (Holds)

variable {program : List Instr} {s s' : State} {host : Host} {vm vm' : DezVm} {w v : Word}

/-- The third operand of an arithmetic word. -/
def thirdSource (w : Word) : Source :=
  if isImmediateMode w then .number (decodeExtImmediate w) else .register (reg3 w)

/-- The second operand of a `CMP` word: register 0 cannot be named. -/
def comparand (w : Word) : Source :=
  if decodeReg2 w != 0#8 then .register (reg2 w) else .number (decodeImmediate w)

/-- The instruction that the machine takes a word for. -/
def decode (w : Word) : Instr :=
  match instructionOf w with
  | none => .unknown ((w >>> 24).setWidth 8)
  | some .mov => .mov (reg1 w) (decodeImmediate w)
  | some .load => .load (reg1 w) (.direct (decodeImmediate w))
  | some .store => .store (reg1 w) (.direct (decodeImmediate w))
  | some .add => .arithmetic .add (reg1 w) (reg2 w) (thirdSource w)
  | some .sub => .arithmetic .sub (reg1 w) (reg2 w) (thirdSource w)
  | some .mul => .arithmetic .mul (reg1 w) (reg2 w) (thirdSource w)
  | some .div => .div (reg1 w) (reg2 w) (thirdSource w)
  | some .jmp => .jmp (decodeImmediate w).toNat
  | some .jz => .jumpIf .equal (decodeImmediate w).toNat
  | some .jnz => .jumpIf .notEqual (decodeImmediate w).toNat
  | some .jl => .jumpIf .less (decodeImmediate w).toNat
  | some .jg => .jumpIf .greater (decodeImmediate w).toNat
  | some .jle => .jumpIf .lessOrEqual (decodeImmediate w).toNat
  | some .jge => .jumpIf .greaterOrEqual (decodeImmediate w).toNat
  | some .push => .push (reg1 w)
  | some .pop => .pop (reg1 w)
  | some .call => .call (decodeImmediate w).toNat
  | some .ret => .ret
  | some .cmp => .cmp (reg1 w) (comparand w)
  | some .sys => .sys (reg1 w) (decodeImmediate w)
  | some .and => .bitwise .and (reg1 w) (reg2 w) (reg3 w)
  | some .or => .bitwise .or (reg1 w) (reg2 w) (reg3 w)
  | some .xor => .bitwise .xor (reg1 w) (reg2 w) (reg3 w)
  | some .not => .not (reg1 w) (reg2 w)
  | some .shl => .shift .left (reg1 w) (reg2 w) (reg3 w)
  | some .shr => .shift .right (reg1 w) (reg2 w) (reg3 w)
  | some .inc => .inc (reg1 w)
  | some .dec => .dec (reg1 w)
  | some .loadIndirect => .load (reg1 w) (.indirect (reg2 w))
  | some .storeIndirect => .store (reg1 w) (.indirect (reg2 w))
  | some .loadIndexed => .load (reg1 w) (.indexed (reg2 w) (reg3 w))
  | some .storeIndexed => .store (reg1 w) (.indexed (reg2 w) (reg3 w))
  | some .halt => .halt
  | some .nop => .nop

/-- The flags that stand for the outcome of the last comparison. -/
def flagsOf : Option Ordering → Word
  | some o => flagsFor o
  | none => 0

/-- The machine holds the state of a program, but for where the program goes on. -/
structure Shows (program : List Instr) (s : State) (vm : DezVm) : Prop where
  small : program.length ≤ 1024
  registers : ∀ r, vm.reg r = s.regs r
  flags : vm.cpu.flags = flagsOf s.compared
  stack : Holds vm.memory.word 0xFFF vm.cpu.sp.toNat s.stack
  code : ∀ i (h : i < program.length), decode (vm.memory.word i) = program[i]
  data : ∀ a, isData program.length a = true → vm.memory.word a = s.data a
  status : vm.cpu.state = s.status
  stdout : vm.stdout = s.stdout
  guarded : Protected vm.memory
  silent : vm.debugMode = false

/-- The machine holds the state of a program. -/
structure Represents (program : List Instr) (s : State) (vm : DezVm) : Prop where
  shows : Shows program s vm
  pc : s.status = .running → vm.cpu.pc.toNat = s.pc

namespace Shows

theorem set (h : Shows program s vm) (r : Fin 16) (v : Word) :
    Shows program (s.set r v) (vm.setReg r v) := by
  refine { h with registers := fun i => ?_ }
  change CArray.set vm.cpu.regs r v i = Function.update s.regs r v i
  rw [CArray.set_apply, Function.update_apply]
  split
  · rfl
  · exact h.registers i

theorem print (h : Shows program s vm) (out : List Output) :
    Shows program (s.print out) (vm.print out) :=
  { h with stdout := congrArg (· ++ out) h.stdout }

theorem stop (h : Shows program s vm) (status : DezVmState) :
    Shows program (s.stop status) (vm.setState status) := { h with status := rfl }

theorem goto (h : Shows program s vm) (pc : ℕ) : Shows program (s.goto pc) vm := { h with }

theorem setPc (h : Shows program s vm) (pc : Word) : Shows program s (vm.setPc pc) := { h with }

theorem advance (h : Shows program s vm) (oldPc increment : Word) :
    Shows program s (vm.advance oldPc increment) := by
  unfold DezVm.advance
  split
  · exact h.setPc _
  · exact h

theorem compare (h : Shows program s vm) (o : Ordering) :
    Shows program { s with compared := some o } (vm.setFlags (flagsFor o)) :=
  { h with flags := rfl }

/-- A cell of the data is apart from the code and from the stack. -/
theorem put (h : Shows program s vm) {a : ℕ} (ha : isData program.length a = true) (v : Word) :
    Shows program (s.put a v) (vm.setMemory (vm.memory.put a v)) := by
  have hbounds : program.length ≤ a ∧ a < 0x800 := by simpa [isData] using ha
  have hsp := h.stack.pointer
  have hlen := s.stack.bounded
  have hne : ∀ b, b ≠ a → (vm.memory.put a v).word b = vm.memory.word b :=
    fun b hb => DezMemory.word_put_of_ne hb v
  refine { h with stack := ?_, code := ?_, data := ?_, guarded := h.guarded.put a v }
  · exact h.stack.frame fun b hb _ => hne b (by omega)
  · intro i hi
    rw [← h.code i hi]
    exact congrArg decode (hne i (by omega))
  · intro b hb
    change (vm.memory.put a v).word b = Function.update s.data a v b
    rw [DezMemory.word_put, Function.update_apply]
    by_cases hba : b = a
    · rw [if_pos ⟨hba, by omega⟩, if_pos hba]
    · rw [if_neg fun h => hba h.1, if_neg hba]
      exact h.data b hb

/-- The values on the stack are those in the cells above the pointer. -/
theorem pushed {stack : BoundedStack Word 2048} (h : Shows program s vm)
    (hpush : s.stack.push v = some stack) :
    Shows program { s with stack := stack } (Effect.pushed v vm) := by
  have hsp := h.stack.pointer
  have hroom : s.stack.items.length < 2048 := by
    have hfull := (BoundedStack.push_eq_none (s := s.stack) (v := v)).not.mp (by simp [hpush])
    have := s.stack.bounded
    omega
  obtain ⟨m, hm⟩ : ∃ m, vm.cpu.sp.toNat = m + 1 := ⟨vm.cpu.sp.toNat - 1, by omega⟩
  have hlow : (vm.cpu.sp - 1#32).toNat = m := by bv_omega
  have hacc : vm.memory.Accepts vm.cpu.sp := (h.guarded.accepts_iff _).mpr ⟨by omega, by omega⟩
  have hmem : vm.memory.store vm.cpu.sp v = vm.memory.put (m + 1) v := by
    rw [DezMemory.store, if_pos hacc, hm]
  have hafter : s.stack.after (.push v) = stack := by rw [BoundedStack.after, hpush, Option.getD]
  have hne : ∀ b, b ≠ m + 1 → (vm.memory.put (m + 1) v).word b = vm.memory.word b :=
    fun b hb => DezMemory.word_put_of_ne hb v
  have hstack := h.stack
  rw [hm] at hstack
  have hcell : (vm.memory.put (m + 1) v).word (m + 1) = v := DezMemory.word_put_self (by omega) v
  have hheld := hstack.push hroom hcell fun a ha _ => hne a (by omega)
  unfold Effect.pushed
  rw [hmem, DezMemory.refused, if_pos hacc, DezVm.print_nil]
  have hsmall := h.small
  refine { h with stack := ?_, code := ?_, data := ?_, guarded := h.guarded.put _ v }
  · change Holds (vm.memory.put (m + 1) v).word 0xFFF (vm.cpu.sp - 1#32).toNat stack
    rw [hlow, ← hafter]
    exact hheld
  · intro i hi
    rw [← h.code i hi]
    exact congrArg decode (hne i (by omega))
  · intro b hb
    have hbounds : program.length ≤ b ∧ b < 0x800 := by simpa [isData] using hb
    exact (hne b (by omega)).trans (h.data b hb)

theorem popped {stack : BoundedStack Word 2048} (h : Shows program s vm)
    (hpop : s.stack.pop = some (v, stack)) :
    Shows program { s with stack := stack } (vm.setSp (vm.cpu.sp + 1#32)) ∧
      vm.memory.word (vm.cpu.sp + 1#32).toNat = v := by
  have hitems := BoundedStack.pop_eq_some.mp hpop
  have hsp := h.stack.pointer
  have hnext : (vm.cpu.sp + 1#32).toNat = vm.cpu.sp.toNat + 1 := by
    rw [hitems, List.length_cons] at hsp
    bv_omega
  have hafter : s.stack.after .pop = stack := BoundedStack.after_pop hitems
  have hheld := h.stack.pop (by simp [hitems])
  rw [hafter, ← hnext] at hheld
  refine ⟨{ h with stack := hheld }, ?_⟩
  rw [hnext]
  exact h.stack.head hitems

end Shows

section steps

variable {oldPc increment : Word} {name : String} {e : Effect}

/-- A program that has stopped goes on nowhere. -/
theorem represents_stopped (h : Shows program s vm) (hs : s.status ≠ .running) :
    Represents program s (vm.advance oldPc increment) :=
  ⟨h.advance _ _, fun hr => absurd hr hs⟩

/-- An instruction that leaves the program counter alone is followed by the next one. -/
theorem represents_goOn (h : Shows program s vm) (hpc : vm.cpu.pc.toNat = s.pc)
    (hlt : s.pc < program.length) :
    Represents program s.goOn (vm.advance vm.cpu.pc 1#32) := by
  have hsmall := h.small
  refine ⟨(h.goto _).advance _ _, fun _ => ?_⟩
  rw [DezVm.advance, if_pos rfl]
  change (vm.cpu.pc + 1#32).toNat = s.pc + 1
  bv_omega

/-- A jump goes to its target, unless the step cannot tell that it jumped. -/
theorem represents_goto (h : Shows program s vm) (target : Word)
    (hne : increment = 0#32 ∨ target ≠ oldPc) :
    Represents program (s.goto target.toNat) ((vm.setPc target).advance oldPc increment) := by
  refine ⟨((h.goto _).setPc _).advance _ _, fun _ => ?_⟩
  unfold DezVm.advance
  by_cases heq : (vm.setPc target).cpu.pc = oldPc
  · rw [if_pos heq, hne.resolve_right fun hno => hno heq, BitVec.add_zero]
    rfl
  · rw [if_neg heq]
    rfl

theorem Shows.fail (h : Shows program s vm) (out : Output) :
    Shows program (s.fail out) (vm.fail out) := (h.print [out]).stop .error

theorem Shows.halt (h : Shows program s vm) (out : List Output) :
    Shows program ((s.print out).stop .halted) ((vm.setState .halted).print out) :=
  { h with stdout := congrArg (· ++ out) h.stdout, status := rfl }

theorem value_thirdSource (h : Shows program s vm) (w : Word) :
    (thirdSource w).value s = thirdOperand vm w := by
  unfold thirdSource thirdOperand
  split
  · rfl
  · exact (h.registers _).symm

theorem value_comparand (h : Shows program s vm) (w : Word) :
    (comparand w).value s = if decodeReg2 w != 0#8 then vm.reg (reg2 w) else decodeImmediate w := by
  unfold comparand
  split
  · exact (h.registers _).symm
  · rfl

/-- The jumps test the flags as their conditions do the outcome. -/
theorem jumps_flagsOf (o : Option Ordering) :
    jumps (flagsOf o) .jz = Condition.equal.holds o ∧
      jumps (flagsOf o) .jnz = Condition.notEqual.holds o ∧
      jumps (flagsOf o) .jl = Condition.less.holds o ∧
      jumps (flagsOf o) .jg = Condition.greater.holds o ∧
      jumps (flagsOf o) .jle = Condition.lessOrEqual.holds o ∧
      jumps (flagsOf o) .jge = Condition.greaterOrEqual.holds o := by
  rcases o with _ | _ | _ | _ <;> decide

/-- A string in the data is the string the machine finds at its address. -/
theorem textAt_eq (h : Shows program s vm) {a : ℕ}
    (ha : 0x200 ≤ a ∨ program.length ≤ a / 4) : textAt s.data a = stringAt vm.memory a := by
  unfold textAt stringAt
  apply congrArg
  apply List.map_congr_left
  intro i hi
  rw [List.mem_range] at hi
  have hdata : isData program.length ((a + i) / 4) = true := by
    simp only [isData, Bool.and_eq_true, decide_eq_true_eq]
    omega
  rw [DezMemory.byte, h.data _ hdata]

variable {r : Fin 16} {a : Address}

/-- A load from the data, or from outside the memory. -/
theorem load_represents (h : Shows program s vm) (hpc : vm.cpu.pc.toNat = s.pc)
    (hlt : s.pc < program.length) (hx : exec program.length s (.load r a) = some s') :
    Represents program s' (((Effect.checked (a.value s) a.loadName
      (.setReg r (vm.memory.word (a.value s).toNat))).perform vm).advance vm.cpu.pc 1#32) := by
  unfold Effect.checked
  simp only [exec] at hx
  by_cases hbound : 4096 ≤ (a.value s).toNat
  · rw [if_pos hbound] at hx
    cases hx
    rw [if_neg (by omega)]
    exact represents_stopped (h.fail _) DezVmState.noConfusion
  · rw [if_neg hbound] at hx
    rw [if_pos (by omega)]
    by_cases hdata : isData program.length (a.value s).toNat = true
    · rw [if_pos hdata] at hx
      cases hx
      rw [← h.data _ hdata]
      exact represents_goOn (h.set _ _) hpc hlt
    · rw [if_neg hdata] at hx
      cases hx

/-- A store through `memory_write_word`, which the code segment refuses. -/
theorem store_represents (h : Shows program s vm) (hpc : vm.cpu.pc.toNat = s.pc)
    (hlt : s.pc < program.length) (ha : ∀ x, a ≠ .direct x)
    (hx : exec program.length s (.store r a) = some s') :
    Represents program s' (((Effect.checked (a.value s) a.storeName
      (.store (a.value s) (vm.reg r))).perform vm).advance vm.cpu.pc 1#32) := by
  have hrefuses : a.refuses s = decide ((a.value s).toNat < 0x400) := by
    cases a with
    | direct x => exact absurd rfl (ha x)
    | indirect r => rfl
    | indexed base index => rfl
  unfold Effect.checked
  simp only [exec, hrefuses, decide_eq_true_eq] at hx
  by_cases hbound : 4096 ≤ (a.value s).toNat
  · rw [if_pos hbound] at hx
    cases hx
    rw [if_neg (by omega)]
    exact represents_stopped (h.fail _) DezVmState.noConfusion
  rw [if_neg hbound] at hx
  rw [if_pos (by omega)]
  change Represents program s' (((vm.setMemory (vm.memory.store (a.value s) (vm.reg r))).print
    (vm.memory.refused (a.value s))).advance vm.cpu.pc 1#32)
  by_cases hcode : (a.value s).toNat < 0x400
  · have hno : ¬ vm.memory.Accepts (a.value s) := by
      rw [h.guarded.accepts_iff]
      omega
    rw [if_pos hcode] at hx
    cases hx
    rw [DezMemory.store, DezMemory.refused, if_neg hno, if_neg hno, DezMemory.refusal,
      if_pos (by omega)]
    exact represents_goOn (h.print _) hpc hlt
  · have hyes : vm.memory.Accepts (a.value s) := (h.guarded.accepts_iff _).mpr (by omega)
    rw [if_neg hcode] at hx
    by_cases hdata : isData program.length (a.value s).toNat = true
    · rw [if_pos hdata] at hx
      cases hx
      rw [DezMemory.store, DezMemory.refused, if_pos hyes, if_pos hyes, DezVm.print_nil,
        h.registers r]
      exact represents_goOn (h.put hdata _) hpc hlt
    · rw [if_neg hdata] at hx
      cases hx

/-- `STORE` writes to the data like the other stores. -/
theorem assign_represents (h : Shows program s vm) (hpc : vm.cpu.pc.toNat = s.pc)
    (hlt : s.pc < program.length) {x : Word} (hbound : x.toNat < 4096)
    (hx : exec program.length s (.store r (.direct x)) = some s') :
    Represents program s' (((Effect.assign x.toNat (vm.reg r)).perform vm).advance vm.cpu.pc
      1#32) := by
  have hin : ¬ 4096 ≤ ((Address.direct x).value s).toNat := Nat.not_le.mpr hbound
  have hopen : ¬ (Address.direct x).refuses s = true := Bool.false_ne_true
  simp only [exec, if_neg hin, if_neg hopen] at hx
  by_cases hdata : isData program.length ((Address.direct x).value s).toNat = true
  · rw [if_pos hdata] at hx
    cases hx
    rw [h.registers r]
    exact represents_goOn (h.put hdata _) hpc hlt
  · rw [if_neg hdata] at hx
    cases hx

theorem jumpIf_represents (h : Shows program s vm) (hpc : vm.cpu.pc.toNat = s.pc)
    (hlt : s.pc < program.length) {condition : Condition} {target : Word}
    (hx : exec program.length s (.jumpIf condition target.toNat) = some s') :
    Represents program s' (((Effect.jumpIf (condition.holds s.compared) target).perform
      vm).advance vm.cpu.pc 1#32) := by
  simp only [exec] at hx
  unfold Effect.jumpIf
  cases hholds : condition.holds s.compared with
  | true =>
    rw [hholds, if_pos rfl] at hx
    by_cases hself : target.toNat = s.pc
    · rw [if_pos hself] at hx
      cases hx
    · rw [if_neg hself] at hx
      cases hx
      apply represents_goto h target
      right
      rintro rfl
      exact hself hpc
  | false =>
    rw [hholds] at hx
    cases hx
    rw [if_neg Bool.false_ne_true, Effect.perform, DezVm.print_nil]
    exact represents_goOn h hpc hlt

/-- A push finds room exactly where the machine's pointer is in the stack segment. -/
theorem full_iff (h : Shows program s vm) (v : Word) :
    s.stack.push v = none ↔ vm.cpu.sp.toNat < 0x800 := by
  have hsp := h.stack.pointer
  have hlen := s.stack.bounded
  rw [BoundedStack.push_eq_none]
  omega

theorem empty_iff (h : Shows program s vm) : s.stack.pop = none ↔ ¬ vm.cpu.sp.toNat < 0xFFF := by
  have hsp := h.stack.pointer
  rw [BoundedStack.pop_eq_none, ← List.length_eq_zero_iff]
  omega

theorem push_represents (h : Shows program s vm) (hpc : vm.cpu.pc.toNat = s.pc)
    (hlt : s.pc < program.length) (hx : exec program.length s (.push r) = some s') :
    Represents program s' (((Effect.unlessFull vm.cpu.sp "PUSH" (.push (vm.reg r))).perform
      vm).advance vm.cpu.pc 1#32) := by
  have hfull := full_iff h (s.regs r)
  simp only [exec, State.push] at hx
  unfold Effect.unlessFull
  cases hpush : s.stack.push (s.regs r) with
  | none =>
    rw [hpush] at hx
    cases hx
    rw [if_pos (hfull.mp hpush)]
    exact represents_stopped (h.fail _) DezVmState.noConfusion
  | some stack =>
    rw [hpush] at hx
    cases hx
    rw [if_neg (hfull.not.mp (by simp [hpush])), h.registers r]
    exact represents_goOn (h.pushed hpush) hpc hlt

theorem call_represents (h : Shows program s vm) (hpc : vm.cpu.pc.toNat = s.pc) {target : Word}
    (hx : exec program.length s (.call target.toNat) = some s') :
    Represents program s' (((Effect.unlessFull vm.cpu.sp "CALL" (.call target)).perform
      vm).advance vm.cpu.pc 0#32) := by
  have hback : BitVec.ofNat 32 (s.pc + 1) = vm.cpu.pc + 1#32 := by
    apply BitVec.eq_of_toNat_eq
    rw [BitVec.toNat_ofNat, BitVec.toNat_add, hpc]
    rfl
  simp only [exec, hback, State.push] at hx
  have hfull := full_iff h (vm.cpu.pc + 1#32)
  unfold Effect.unlessFull
  cases hpush : s.stack.push (vm.cpu.pc + 1#32) with
  | none =>
    rw [hpush] at hx
    cases hx
    rw [if_pos (hfull.mp hpush)]
    exact represents_stopped (h.fail _) DezVmState.noConfusion
  | some stack =>
    rw [hpush] at hx
    cases hx
    rw [if_neg (hfull.not.mp (by simp [hpush]))]
    exact represents_goto (h.pushed hpush) target (.inl rfl)

theorem pop_represents (h : Shows program s vm) (hpc : vm.cpu.pc.toNat = s.pc)
    (hlt : s.pc < program.length) (hx : exec program.length s (.pop r) = some s') :
    Represents program s' (((Effect.unlessEmpty vm.cpu.sp "POP" (.pop r)).perform
      vm).advance vm.cpu.pc 1#32) := by
  have hempty := empty_iff h
  simp only [exec, State.pop] at hx
  unfold Effect.unlessEmpty
  cases hpop : s.stack.pop with
  | none =>
    rw [hpop] at hx
    cases hx
    rw [if_neg (hempty.mp hpop)]
    exact represents_stopped (h.fail _) DezVmState.noConfusion
  | some popped =>
    obtain ⟨v, stack⟩ := popped
    rw [hpop] at hx
    cases hx
    obtain ⟨hshows, hword⟩ := h.popped hpop
    rw [if_pos (not_not.mp (hempty.not.mp (by simp [hpop]))), Effect.perform, hword]
    exact represents_goOn (hshows.set r v) hpc hlt

theorem ret_represents (h : Shows program s vm)
    (hx : exec program.length s .ret = some s') :
    Represents program s' (((Effect.unlessEmpty vm.cpu.sp "RET" .ret).perform
      vm).advance vm.cpu.pc 0#32) := by
  have hempty := empty_iff h
  simp only [exec, State.pop] at hx
  unfold Effect.unlessEmpty
  cases hpop : s.stack.pop with
  | none =>
    rw [hpop] at hx
    cases hx
    rw [if_neg (hempty.mp hpop)]
    exact represents_stopped (h.fail _) DezVmState.noConfusion
  | some popped =>
    obtain ⟨v, stack⟩ := popped
    rw [hpop] at hx
    cases hx
    obtain ⟨hshows, hword⟩ := h.popped hpop
    rw [if_pos (not_not.mp (hempty.not.mp (by simp [hpop]))), Effect.perform, hword]
    exact represents_goto hshows v (.inl rfl)

theorem div_represents (h : Shows program s vm) (hpc : vm.cpu.pc.toNat = s.pc)
    (hlt : s.pc < program.length) {i : Fin 16} {b : Source} {divisor : Word}
    (hb : b.value s = divisor) (hx : exec program.length s (.div r i b) = some s') :
    Represents program s' (((if divisor = 0#32 then
        Effect.fail (.printf "Error: Division by zero\n" [])
      else .setReg r (host.quotient (vm.reg i) divisor)).perform vm).advance vm.cpu.pc 1#32) := by
  simp only [exec, hb] at hx
  by_cases hzero : divisor = 0#32
  · rw [if_pos hzero] at hx ⊢
    cases hx
    exact represents_stopped (h.fail _) DezVmState.noConfusion
  · rw [if_neg hzero] at hx ⊢
    cases hx
    rw [Host.quotient, if_neg hzero, h.registers i]
    exact represents_goOn (h.set _ _) hpc hlt

theorem shift_represents (h : Shows program s vm) (hpc : vm.cpu.pc.toNat = s.pc)
    (hlt : s.pc < program.length) {i j : Fin 16} {op : Shift} {f : Word → Word → Word}
    (hf : ∀ v w : Word, w.toNat < 32 → f v w = op.apply v w.toNat)
    (hx : exec program.length s (.shift op r i j) = some s') :
    Represents program s' (((Effect.setReg r (f (vm.reg i) (vm.reg j))).perform vm).advance
      vm.cpu.pc 1#32) := by
  simp only [exec] at hx
  by_cases hcount : (s.regs j).toNat < 32
  · rw [if_pos hcount] at hx
    cases hx
    rw [h.registers i, h.registers j, hf _ _ hcount]
    exact represents_goOn (h.set _ _) hpc hlt
  · rw [if_neg hcount] at hx
    cases hx

theorem sys_represents (h : Shows program s vm) (hpc : vm.cpu.pc.toNat = s.pc)
    (hlt : s.pc < program.length)
    (hx : exec program.length s (.sys (reg1 w) (decodeImmediate w)) = some s') :
    Represents program s' (((sysEffect vm w).perform vm).advance vm.cpu.pc 1#32) := by
  have hreg : BitVec.ofNat 32 (reg1 w) = (decodeReg1 w).setWidth 32 := by
    apply BitVec.eq_of_toNat_eq
    have := decodeReg1_lt w
    rw [BitVec.toNat_ofNat, BitVec.toNat_setWidth]
    rfl
  have hstr : 0x200 ≤ (s.regs (reg1 w)).toNat ∨ program.length ≤ (s.regs (reg1 w)).toNat / 4 →
      (unescape (textAt s.data (s.regs (reg1 w)).toNat)).map Output.putc =
        printedStr vm.memory (s.regs (reg1 w)) := by
    intro hdata
    rw [textAt_eq h hdata, printedStr, printStr_unescape vm.memory le_rfl]
  have hgoOn := fun out => represents_goOn (h.print out) hpc hlt
  simp only [exec, execSys, hreg] at hx
  unfold sysEffect
  rw [h.registers (reg1 w)]
  generalize (decodeImmediate w).toNat = call at hx ⊢
  rcases call with _ | _ | _ | _ | _ | _ | _ | call
  case succ.succ.zero =>
    by_cases hdata : 0x200 ≤ (s.regs (reg1 w)).toNat ∨
        program.length ≤ (s.regs (reg1 w)).toNat / 4
    · rw [if_pos hdata] at hx
      cases hx
      rw [hstr hdata]
      exact hgoOn _
    · rw [if_neg hdata] at hx
      cases hx
  case succ.succ.succ.succ.succ.succ.zero =>
    cases hx
    exact represents_stopped (h.halt _) DezVmState.noConfusion
  all_goals
    cases hx
    exact hgoOn _

/-- The effect of a word on the machine is what its instruction means. -/
theorem exec_represents (host : Host) (h : Shows program s vm) (hpc : vm.cpu.pc.toNat = s.pc)
    (hlt : s.pc < program.length) (hx : exec program.length s (decode w) = some s') :
    Represents program s'
      (((effect host vm w).perform vm).advance vm.cpu.pc (pcIncrement w)) := by
  have hgoOn : ∀ {u : State} {vm₁ : DezVm}, Shows program u vm₁ → vm₁.cpu.pc = vm.cpu.pc →
      u.pc = s.pc → Represents program u.goOn (vm₁.advance vm.cpu.pc 1#32) := by
    intro u vm₁ hu hpc₁ hpcs
    rw [← hpc₁]
    exact represents_goOn hu (by rw [hpc₁, hpc, hpcs]) (by omega)
  have hset : ∀ r v, Represents program (s.set r v).goOn
      ((vm.setReg r v).advance vm.cpu.pc 1#32) := fun r v => hgoOn (h.set r v) rfl rfl
  have hregs := h.registers
  have hthird := value_thirdSource h w
  have hsecond := value_comparand h w
  have hjumps := jumps_flagsOf s.compared
  rw [← h.flags] at hjumps
  unfold effect pcIncrement
  unfold decode at hx
  cases ht : instructionOf w with
  | none =>
    rw [ht] at hx
    cases hx
    have hmessage : [w >>> 24, vm.cpu.pc] =
        [((w >>> 24).setWidth 8 : Byte).setWidth 32, BitVec.ofNat 32 s.pc] := by
      have hpc' : BitVec.ofNat 32 s.pc = vm.cpu.pc := by
        rw [← hpc, BitVec.ofNat_toNat, BitVec.setWidth_eq]
      have hop : ((w >>> 24).setWidth 8 : Byte).setWidth 32 = w >>> 24 := by
        apply BitVec.eq_of_toNat_eq
        have := w.isLt
        rw [BitVec.toNat_setWidth, BitVec.toNat_setWidth, BitVec.toNat_ushiftRight,
          Nat.shiftRight_eq_div_pow]
        omega
      rw [hpc', hop]
    dsimp only
    rw [hmessage]
    exact represents_stopped (h.fail _) DezVmState.noConfusion
  | some t =>
    rw [ht] at hx
    change Represents program s' (((instructionEffect host vm w t).perform vm).advance vm.cpu.pc
      (instructionTable t).pcIncrement)
    cases t with
    | mov => cases hx; exact hset _ _
    | add | sub | mul =>
      cases hx
      simp only [instructionEffect, ← hthird, hregs]
      exact hset _ _
    | and | or | xor | not | inc | dec =>
      cases hx
      simp only [instructionEffect, hregs]
      exact hset _ _
    | load =>
      have hlow : ((Address.direct (decodeImmediate w)).value s).toNat < 4096 :=
        decodeImmediate_lt w
      have hrep := load_represents h hpc hlt hx
      rw [Effect.checked, if_pos hlow] at hrep
      exact hrep
    | store => exact assign_represents h hpc hlt (decodeImmediate_lt w) hx
    | div => exact div_represents h hpc hlt hthird hx
    | shl =>
      have hleft : ∀ v c : Word, c.toNat < 32 →
          host.shiftLeft v c = Shift.left.apply v c.toNat := fun v c hc => if_pos hc
      exact shift_represents h hpc hlt hleft hx
    | shr =>
      have hright : ∀ v c : Word, c.toNat < 32 →
          host.shiftRight v c = Shift.right.apply v c.toNat := fun v c hc => if_pos hc
      exact shift_represents h hpc hlt hright hx
    | jmp => cases hx; exact represents_goto h _ (.inl rfl)
    | jz =>
      rw [jumpEffect_eq host vm w (by decide), hjumps.1]
      exact jumpIf_represents h hpc hlt hx
    | jnz =>
      rw [jumpEffect_eq host vm w (by decide), hjumps.2.1]
      exact jumpIf_represents h hpc hlt hx
    | jl =>
      rw [jumpEffect_eq host vm w (by decide), hjumps.2.2.1]
      exact jumpIf_represents h hpc hlt hx
    | jg =>
      rw [jumpEffect_eq host vm w (by decide), hjumps.2.2.2.1]
      exact jumpIf_represents h hpc hlt hx
    | jle =>
      rw [jumpEffect_eq host vm w (by decide), hjumps.2.2.2.2.1]
      exact jumpIf_represents h hpc hlt hx
    | jge =>
      rw [jumpEffect_eq host vm w (by decide), hjumps.2.2.2.2.2]
      exact jumpIf_represents h hpc hlt hx
    | push => exact push_represents h hpc hlt hx
    | pop => exact pop_represents h hpc hlt hx
    | call => exact call_represents h hpc hx
    | ret => exact ret_represents h hx
    | cmp =>
      cases hx
      simp only [instructionEffect, compareFlags_eq]
      rw [← hsecond, hregs]
      exact hgoOn (h.compare _) rfl rfl
    | sys => exact sys_represents h hpc hlt hx
    | loadIndirect | loadIndexed =>
      simp only [instructionEffect, hregs]
      exact load_represents h hpc hlt hx
    | storeIndirect | storeIndexed =>
      have hrep := store_represents h hpc hlt (by simp) hx
      simp only [instructionEffect, hregs] at hrep ⊢
      exact hrep
    | halt => cases hx; exact represents_stopped (h.halt _) DezVmState.noConfusion
    | nop =>
      cases hx
      simp only [instructionEffect, Effect.perform, DezVm.print_nil]
      exact hgoOn h rfl rfl

end steps

/-- One step of the meaning of a program is one step of the machine. -/
theorem step_represents (h : Represents program s vm) (hn : next program s = some s')
    (hstep : dezVmStep host vm = .ok vm') : Represents program s' vm' := by
  have hstatus := h.shows.status
  unfold next at hn
  by_cases hr : s.status = .running
  · rw [if_neg (not_not_intro hr)] at hn
    obtain ⟨i, hi, hx⟩ := Option.bind_eq_some_iff.mp hn
    obtain ⟨hlt, rfl⟩ := List.getElem?_eq_some_iff.mp hi
    have hpc := h.pc hr
    have hsmall := h.shows.small
    have he : vm.Executes := ⟨hstatus.trans hr, by omega⟩
    rw [dezVmStep_executes he] at hstep
    cases hstep
    have hfetched : decode vm.fetched = program[s.pc] := by
      rw [DezVm.fetched, hpc]
      exact h.shows.code _ hlt
    have htraced : vm.traced = vm := by
      rw [DezVm.traced, h.shows.silent]
      exact DezVm.print_nil vm
    rw [← hfetched] at hx
    unfold Machine.next
    rw [htraced]
    exact exec_represents host h.shows hpc hlt hx
  · rw [if_pos hr] at hn
    cases hn
    rcases step_cases hstep with ⟨-, rfl⟩ | ⟨hrun, -⟩ | ⟨he, -⟩
    · exact h
    · exact absurd (hstatus.symm.trans hrun) hr
    · exact absurd (hstatus.symm.trans he.1) hr

theorem simulates (program : List Instr) : Simulates (next program)
    (fun vm vm' => ∃ host, dezVmStep host vm = .ok vm') (Represents program) := by
  rintro s s' vm vm' h hn ⟨host, hstep⟩
  exact step_represents h hn hstep

/-- Every run of the machine from a state that represents a program's stays with the program for as
long as the program has a meaning. -/
theorem run_represents {E : Execution} (hE : Valid E) (h : Represents program s (E.state 0)) {n : ℕ}
    (hn : runFor (next program) n s = some s') : Represents program s' (E.state n) :=
  (simulates program).run (fun n => ⟨E.host n, hE n⟩) h hn

end Dez.Semantics
