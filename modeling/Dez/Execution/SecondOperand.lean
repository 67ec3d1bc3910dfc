import Dez.Execution.Words
import Dez.Machine.Jumps
import Dez.Reassembly

/-! `MOV` and `CMP`, whose second operand is a register or a number, from the text to the
machine. -/
namespace Dez.Execution

open Assembler Disassembler Machine

variable {host : Host} {vm : DezVm} {type : DezInstructionType} {a b : Fin 16} {room : ℕ}

/-- A second operand: a register, or a number of 12 bits. -/
inductive Source
  | register (r : Fin 16)
  | number (v : Word) (h : v.toNat ≤ 4095)

namespace Source

def text : Source → List Byte
  | register r => dezGetRegisterName (regByte r)
  | number v _ => decimal v

def operand : Source → Operand
  | register r => .register r
  | number v _ => .immediate v

/-- What it stands for. -/
def value (vm : DezVm) : Source → Word
  | register r => vm.reg r
  | number v _ => v

end Source

variable {source : Source} {lexeme : Lexeme}

/-- The line of a mnemonic with a register and a second operand. -/
def lineText (type : DezInstructionType) (a : Fin 16) (source : Source) : List Byte :=
  mnemonicOf type ++
    0x20#8 :: (dezGetRegisterName (regByte a) ++ ch ',' :: 0x20#8 :: source.text)

theorem operandOf_number {value : Word} {lexemes : List Lexeme} (h : value.toNat < 4096) :
    operandOf (lineItems (numberLexeme (decimal value) :: lexemes)) =
      .ok (.immediate value) (lineItems lexemes) := by
  have hvalue : (numberLexeme (decimal value)).numValue = value := (decimal_spelling h).2.2.2
  calc operandOf (lineItems (numberLexeme (decimal value) :: lexemes))
      = .ok (.immediate (numberLexeme (decimal value)).numValue) (lineItems lexemes) := rfl
    _ = .ok (.immediate value) (lineItems lexemes) := by rw [hvalue]

/-- The text of an operand is one token, which is read back. -/
theorem source_reads (source : Source) :
    ∃ lexeme, Spells source.text [lexeme] ∧
      operandOf (lineItems [lexeme]) = .ok source.operand [] := by
  cases source with
  | register r =>
    have h : Spells (dezGetRegisterName (regByte r) ++ []) [registerLexeme r] :=
      spells_register r rfl spells_nil
    rw [List.append_nil] at h
    exact ⟨_, h, operandOf_register r⟩
  | number v hv =>
    have hlt : v.toNat < 4096 := by omega
    have h : Spells (decimal v ++ []) [numberLexeme (decimal v)] :=
      spells_decimal hlt rfl spells_nil
    rw [List.append_nil] at h
    exact ⟨_, h, operandOf_number hlt⟩

theorem spells_lineText (hspells : Spells source.text [lexeme]) :
    Spells (lineText type a source)
      [nameLexeme (mnemonicOf type), registerLexeme a, comma, lexeme] :=
  spells_mnemonic type rfl (spells_blank (spells_register a rfl (spells_comma
    (spells_blank hspells))))

/-- The line is read as the instruction it writes. -/
theorem lineText_reads (ht : type ∈ [.mov, .cmp]) (a : Fin 16) (source : Source) :
    (readSource (lineText type a source)).lines =
        [.instruction ⟨type, [.register a, source.operand]⟩] ∧
      (readSource (lineText type a source)).ending = .eof := by
  obtain ⟨lexeme, hspells, hoperand⟩ := source_reads source
  have hnamed : type ∉ unnamed ∧ numOperands type = 2 := by
    simp only [List.mem_cons, List.not_mem_nil, or_false] at ht
    rcases ht with rfl | rfl <;> decide
  have hoperands : operandsOf 0 (numOperands type)
      (lineItems [registerLexeme a, comma, lexeme]) = .ok [.register a, source.operand] [] := by
    rw [hnamed.2]
    exact operandsOf_first (operandOf_register a) (operandsOf_next hoperand rfl)
  have hread := lineOf_named hnamed.1 hoperands
  have hne : lineText type a source ≠ [] :=
    List.append_ne_nil_of_right_ne_nil _ (List.cons_ne_nil _ _)
  obtain ⟨n, hn⟩ := Nat.exists_eq_succ_of_ne_zero (mt List.eq_nil_of_length_eq_zero hne)
  obtain ⟨hlines, hending⟩ := source_of_spells (spells_lineText hspells)
  rw [hn, linesOf_ok (lineOf_ne_eof hread) hread] at hlines hending
  exact ⟨hlines, hending⟩

/-- A text of one instruction is accepted, and its word is the encoded instruction. -/
theorem parserParse_single {text : List Byte} {inst : ParsedInstruction}
    (hlines : (readSource text).lines = [.instruction inst])
    (hending : (readSource text).ending = .eof) (stale : ℕ → Word → ℕ → Word)
    (output : CArray Word (room + 1)) :
    (parserParse stale (parserInit text symbolTableInit output)).1 = true ∧
      ∃ table, (parserParse stale (parserInit text symbolTableInit output)).2.output 0 =
        (parserEncodeInstruction (stale 2 0#32) table inst).1 := by
  have hinsts : sourceInstructions text = [inst] := by
    rw [sourceInstructions, hlines]
    rfl
  have hread : (readSource text).ending ≠ .failed := by
    intro hfailed
    cases hending.symm.trans hfailed
  have hsuccess := (parserParse_iff stale symbolTableInit output text).mpr
    ⟨hread, by rw [hinsts]; exact Nat.le_add_left 1 room⟩
  obtain ⟨_, hword⟩ := parserParse_word hsuccess (i := 0) (by rw [hinsts]; rfl)
  generalize parserParse stale (parserInit text symbolTableInit output) = result at *
  exact ⟨hsuccess, _, hword⟩

/-- The number of a register in the operand's union, over what the stack held. -/
theorem toNat_putByte_zero (w : Word) (b : Byte) :
    (putByte w 0 b).toNat = 256 * (w.toNat / 256) + b.toNat := by
  have hsplit : putByte w 0 b = (w >>> 8) <<< 8 ||| b.setWidth 32 := by
    apply BitVec.eq_of_getLsbD_eq
    intro i hi
    rw [getLsbD_putByte w 0 i b hi, BitVec.getLsbD_or, BitVec.getLsbD_shiftLeft,
      BitVec.getLsbD_ushiftRight, BitVec.getLsbD_setWidth]
    by_cases h8 : i < 8
    · simp [h8, hi]
    · have hb : b.getLsbD i = false := BitVec.getLsbD_of_ge _ _ (by omega)
      have hi8 : 8 + (i - 8) = i := by omega
      simp [h8, hi, hb, hi8]
  have hshift : ((w >>> 8) <<< 8 : Word).toNat = 2 ^ 8 * (w.toNat / 256) := by
    have hw := w.isLt
    rw [BitVec.toNat_shiftLeft, BitVec.toNat_ushiftRight, Nat.shiftRight_eq_div_pow,
      Nat.shiftLeft_eq]
    omega
  have hb : (b.setWidth 32 : Word).toNat = b.toNat := by
    have hlt := b.isLt
    rw [BitVec.toNat_setWidth]
    omega
  have hlt := b.isLt
  rw [hsplit, toNat_or_disjoint hshift (by rw [hb]; omega), hshift, hb]
  omega

section mov

/-- One step copies the value to the register and goes on to the next word. -/
def Copies (host : Host) (vm : DezVm) (a : Fin 16) (v : Word) : Prop :=
  ∃ vm', dezVmStep host vm = .ok vm' ∧ vm'.reg a = v ∧ vm'.cpu.pc = vm.cpu.pc + 1#32

theorem encode_mov (stale : ℕ → Word) (table : SymbolTable) (a : Fin 16) (source : Source) :
    (parserEncodeInstruction stale table ⟨.mov, [.register a, source.operand]⟩).1 =
      packed .mov a 0 0 (source.operand.value (stale 1) &&& 0x0FFF#32) := by
  rw [← encodeJump_packed]
  cases source with
  | register b => rfl
  | number v h => rfl

theorem copies_packed {low v : Word} (hlow : low.toNat < 4096) (he : vm.Executes)
    (hw : vm.fetched = packed .mov a 0 0 low) : Copies host vm a v ↔ low = v := by
  have hreg : reg1 vm.fetched = a := by rw [hw, reg1_packed hlow]
  have himm : decodeImmediate vm.fetched = low := by rw [hw, decodeImmediate_packed hlow]
  have heffect : instructionEffect host vm vm.fetched .mov = .setReg a low := by
    rw [← hreg, ← himm]
    rfl
  have hstep := step_writes (runs_packed he hlow hw) heffect rfl
  have hset : (wrote vm a low).reg a = low := if_pos rfl
  constructor
  · rintro ⟨vm', hok, hcopy, -⟩
    rw [hstep] at hok
    cases hok
    rw [← hset, hcopy]
  · rintro rfl
    exact ⟨_, hstep, hset, rfl⟩

/-- The immediate of a `MOV` between registers: the number of the register, with what the stack held
above it. -/
theorem registerImmediate_toNat (b : Fin 16) (w : Word) :
    ((Operand.register b).value w &&& 0x0FFF#32).toNat = b.val + 256 * (w.toNat / 256 % 16) := by
  have hvalue : (Operand.register b).value w = putByte w 0 (regByte b) := rfl
  have hb := b.isLt
  rw [toNat_and_low _ 12 _ rfl, hvalue, toNat_putByte_zero, regByte_toNat]
  omega

/-- `MOV` with a number always sets the register to it; `MOV` between registers copies exactly if
the source register happens to hold its own number under the bits left on the stack. -/
theorem mov_copies_iff (host : Host) (stale : ℕ → Word → ℕ → Word)
    (output : CArray Word (room + 1)) (a : Fin 16) (source : Source) :
    (parserParse stale (parserInit (lineText .mov a source) symbolTableInit output)).1 = true ∧
    ∀ vm : DezVm, vm.Executes →
      vm.fetched = (parserParse stale
        (parserInit (lineText .mov a source) symbolTableInit output)).2.output 0 →
      (Copies host vm a (source.value vm) ↔
        match source with
        | .number _ _ => True
        | .register b => (vm.reg b).toNat = b.val + 256 * ((stale 2 0#32 1).toNat / 256 % 16)) := by
  obtain ⟨hlines, hending⟩ := @lineText_reads .mov (by decide) a source
  obtain ⟨haccepted, table, hword⟩ := parserParse_single hlines hending stale output
  refine ⟨haccepted, ?_⟩
  intro vm he hw
  rw [hword, encode_mov] at hw
  rw [copies_packed (immediate_lt _) he hw]
  cases source with
  | number v hv =>
    refine iff_of_true (BitVec.eq_of_toNat_eq ?_) trivial
    have hlow := toNat_and_low v 12 0x0FFF#32 rfl
    exact hlow.trans (Nat.mod_eq_of_lt (by omega))
  | register b =>
    have hlow := registerImmediate_toNat b (stale 2 0#32 1)
    constructor
    · intro heq
      exact (congrArg BitVec.toNat heq).symm.trans hlow
    · intro heq
      exact BitVec.eq_of_toNat_eq (hlow.trans heq.symm)

/-- A machine in front of the word of `MOV R1, R2`. -/
def movTwo : DezVm := loadedVm false [0x10100002#32] []

theorem movTwo_fetched : movTwo.fetched = (parserParse (fun _ _ _ => 0) (parserInit
    (lineText .mov 1 (.register 2)) symbolTableInit (fun _ => 0))).2.output (0 : Fin 1) := by
  decide

theorem mov_copies_iff_movTwo :
    (parserParse (fun _ _ _ => 0) (parserInit (lineText .mov 1 (.register 2)) symbolTableInit
      (fun _ : Fin 1 => 0))).1 = true ∧
    (Copies zeroHost movTwo 1 (movTwo.reg 2) ↔
      (movTwo.reg 2).toNat = 2 + 256 * ((0#32).toNat / 256 % 16)) :=
  have h := @mov_copies_iff 0 zeroHost (fun _ _ _ => 0) (fun _ => 0) 1 (.register 2)
  ⟨h.1, h.2 movTwo (by decide) movTwo_fetched⟩

/-- `MOV R1, R2` puts the number 2 into `R1`. -/
theorem mov_takes_number :
    ¬ ∀ host stale (output : CArray Word 1) (a : Fin 16) (source : Source) (vm : DezVm),
      vm.Executes →
      vm.fetched = (parserParse stale
        (parserInit (lineText .mov a source) symbolTableInit output)).2.output 0 →
      Copies host vm a (source.value vm) := by
  intro h
  obtain ⟨vm', hstep, hcopy, -⟩ := h zeroHost (fun _ _ _ => 0) (fun _ => 0) 1 (.register 2) movTwo
    (by decide) movTwo_fetched
  have hreg : ((dezVmStep zeroHost movTwo).toOption.map fun vm => vm.reg 1) = some 2#32 := by decide
  rw [hstep] at hreg
  have htwo : vm'.reg 1 = 2#32 := Option.some.inj hreg
  rw [htwo] at hcopy
  exact absurd hcopy (by decide)

end mov

section cmp

/-- One step sets the flags to the outcome of the comparison. -/
def Compares (host : Host) (vm : DezVm) (x y : Word) : Prop :=
  ∃ vm', dezVmStep host vm = .ok vm' ∧ vm'.cpu.flags = flagsFor (compare x.toNat y.toNat)

theorem flagsFor_injective : Function.Injective flagsFor := by
  intro x y h
  cases x <;> cases y <;> first | rfl | exact absurd h (by decide)

theorem compares_runs (hr : vm.Runs .cmp) (x y : Word) :
    Compares host vm x y ↔
      compare (compared vm vm.fetched).1.toNat (compared vm vm.fetched).2.toNat =
        compare x.toNat y.toNat := by
  have hstep := @step_runs host vm .cmp hr
  constructor
  · rintro ⟨vm', hok, hflags⟩
    rw [step_cmp hok hr] at hflags
    exact flagsFor_injective hflags
  · intro h
    refine ⟨_, hstep, ?_⟩
    rw [step_cmp hstep hr, h]

/-- The registers an encoded `CMP` names and its number. -/
theorem encode_compare (stale : ℕ → Word) (table : SymbolTable) (a : Fin 16) (source : Source) :
    (parserEncodeInstruction stale table ⟨.cmp, [.register a, source.operand]⟩).1 =
      match source with
      | .register b => packed .cmp a b 0 0#32
      | .number v _ => packed .cmp a 0 0 (v &&& 0x0FFF#32) := by
  cases source with
  | register b => exact encodeArithmetic_packed .cmp a b 0
  | number v h => exact encodeJump_packed .cmp a v

/-- The machine takes the number of the word for a register with the number 0. -/
theorem compared_packed (vm : DezVm) (a b : Fin 16) {low : Word} (hlow : low.toNat < 4096) :
    compared vm (packed .cmp a b 0 low) = (vm.reg a, if b = 0 then low else vm.reg b) := by
  by_cases hb : b = 0
  · subst hb
    have hzero : decodeReg2 (packed .cmp a 0 0 low) = 0#8 := (decodeReg2_packed hlow).mpr rfl
    rw [compared, hzero, reg1_packed hlow, decodeImmediate_packed hlow, if_pos rfl]
    rfl
  · have hne : decodeReg2 (packed .cmp a b 0 low) ≠ 0#8 := mt (decodeReg2_packed hlow).mp hb
    rw [compared, if_pos (bne_iff_ne.mpr hne), reg1_packed hlow, reg2_packed hlow, if_neg hb]

/-- Against zero a number compares as against a smaller one. -/
theorem compare_zero_eq (x y : ℕ) : compare x 0 = compare x y ↔ y = 0 ∨ y < x := by
  rcases Nat.lt_trichotomy x y with hlt | heq | hgt
  · have hne : compare x 0 ≠ .lt := fun h => absurd (compare_lt_iff_lt.mp h) (Nat.not_lt_zero x)
    rw [compare_lt_iff_lt.mpr hlt]
    exact iff_of_false hne (by omega)
  · rw [compare_eq_iff_eq.mpr heq, compare_eq_iff_eq, heq]
    exact ⟨.inl, fun h => h.resolve_right (Nat.lt_irrefl y)⟩
  · rw [compare_gt_iff_gt.mpr hgt, compare_gt_iff_gt.mpr (show x > 0 by omega)]
    exact iff_of_true rfl (.inr hgt)

/-- `CMP` compares what was written unless the second register is `R0`: the machine then takes the
empty immediate field, and the flags are right only if `R0` holds zero or less than the first. -/
theorem cmp_compares_iff (host : Host) (stale : ℕ → Word → ℕ → Word)
    (output : CArray Word (room + 1)) (a : Fin 16) (source : Source) :
    (parserParse stale (parserInit (lineText .cmp a source) symbolTableInit output)).1 = true ∧
    ∀ vm : DezVm, vm.Executes →
      vm.fetched = (parserParse stale
        (parserInit (lineText .cmp a source) symbolTableInit output)).2.output 0 →
      (Compares host vm (vm.reg a) (source.value vm) ↔
        match source with
        | .number _ _ => True
        | .register b => b ≠ 0 ∨ vm.reg 0 = 0 ∨ (vm.reg 0).toNat < (vm.reg a).toNat) := by
  obtain ⟨hlines, hending⟩ := @lineText_reads .cmp (by decide) a source
  obtain ⟨haccepted, table, hword⟩ := parserParse_single hlines hending stale output
  refine ⟨haccepted, ?_⟩
  intro vm he hw
  rw [hword, encode_compare] at hw
  cases source with
  | number v hv =>
    have hlow := immediate_lt v
    have hr := runs_packed he hlow hw
    have hv12 : v &&& 0x0FFF#32 = v :=
      BitVec.eq_of_toNat_eq ((toNat_and_low v 12 _ rfl).trans (Nat.mod_eq_of_lt (by omega)))
    rw [compares_runs hr, hw, compared_packed vm a 0 hlow, if_pos rfl, hv12]
    exact iff_of_true rfl trivial
  | register b =>
    have hlow : (0#32).toNat < 4096 := by decide
    have hr := runs_packed he hlow hw
    rw [compares_runs hr, hw, compared_packed vm a b hlow]
    by_cases hb : b = 0
    · subst hb
      have hreg : vm.reg 0 = 0 ↔ (vm.reg 0).toNat = 0 :=
        ⟨congrArg BitVec.toNat, fun h => BitVec.eq_of_toNat_eq h⟩
      rw [if_pos rfl]
      refine (compare_zero_eq _ _).trans ?_
      rw [hreg]
      exact (or_iff_right fun h => absurd rfl h).symm
    · rw [if_neg hb]
      exact iff_of_true rfl (.inl hb)

/-- A machine in front of `DEC R0`, and of the word of `CMP R1, R0` after a step. -/
def decrementZero : DezVm := loadedVm false [0x1E000000#32, 0x0E100000#32] []

/-- The machine with `R0` set, in front of the comparison. -/
def cmpZero : DezVm := (execution zeroHost decrementZero).state 1

theorem cmpZero_fetched : cmpZero.fetched = (parserParse (fun _ _ _ => 0) (parserInit
    (lineText .cmp 1 (.register 0)) symbolTableInit (fun _ => 0))).2.output (0 : Fin 1) := by
  decide

theorem cmp_compares_iff_cmpZero :
    (parserParse (fun _ _ _ => 0) (parserInit (lineText .cmp 1 (.register 0)) symbolTableInit
      (fun _ : Fin 1 => 0))).1 = true ∧
    (Compares zeroHost cmpZero (cmpZero.reg 1) (cmpZero.reg 0) ↔
      (0 : Fin 16) ≠ 0 ∨ cmpZero.reg 0 = 0 ∨ (cmpZero.reg 0).toNat < (cmpZero.reg 1).toNat) :=
  have h := @cmp_compares_iff 0 zeroHost (fun _ _ _ => 0) (fun _ => 0) 1 (.register 0)
  ⟨h.1, h.2 cmpZero (by decide) cmpZero_fetched⟩

/-- With 2^32 - 1 in `R0`, `CMP R1, R0` finds the zero in `R1` equal to it. -/
theorem cmp_takes_zero :
    ¬ ∀ host stale (output : CArray Word 1) (a : Fin 16) (source : Source) (vm : DezVm),
      vm.Executes →
      vm.fetched = (parserParse stale
        (parserInit (lineText .cmp a source) symbolTableInit output)).2.output 0 →
      Compares host vm (vm.reg a) (source.value vm) := by
  intro h
  obtain ⟨vm', hstep, hflags⟩ := h zeroHost (fun _ _ _ => 0) (fun _ => 0) 1 (.register 0) cmpZero
    (by decide) cmpZero_fetched
  have hequal : ((dezVmStep zeroHost cmpZero).toOption.map fun vm => vm.cpu.flags) =
      some (flagEqual ||| flagZero) := by decide
  rw [hstep] at hequal
  have hset : vm'.cpu.flags = flagEqual ||| flagZero := Option.some.inj hequal
  rw [hset] at hflags
  exact absurd hflags (by decide)

end cmp

end Dez.Execution
