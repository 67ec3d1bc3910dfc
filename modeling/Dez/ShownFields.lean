import Dez.Runs
import Dez.Readback

/-! What the text of an instruction word says of the word. -/
namespace Dez.Disassembler

open Assembler

variable {w w' v v' : Word} {t : DezInstructionType} {r r' : Byte} {rest rest' : List Byte}

theorem decimal_inj (h : decimal v = decimal v') : v = v' := by
  have hplaces : ∀ u : Word, u.toNat < 10 ^ 10 := by
    intro u
    have := u.isLt
    omega
  apply BitVec.eq_of_toNat_eq
  rw [← foldl_decimalDigits (hplaces v), ← foldl_decimalDigits (hplaces v')]
  exact congrArg _ h

theorem hexDigit_inj : ∀ i < 16, ∀ j < 16,
    (bytes "0123456789ABCDEF").getD i 0 = (bytes "0123456789ABCDEF").getD j 0 → i = j := by
  decide

/-- Eight hexadecimal digits are the whole word. -/
theorem hexadecimal_inj (h : hexadecimal 8 v = hexadecimal 8 v') : v = v' := by
  have hdigit : ∀ i < 8, v.toNat / 2 ^ (4 * (7 - i)) % 16 = v'.toNat / 2 ^ (4 * (7 - i)) % 16 := by
    intro i hi
    have hmap := List.map_inj_left.mp h i (List.mem_range.mpr hi)
    have heq := hexDigit_inj _ (Nat.mod_lt _ (by decide)) _ (Nat.mod_lt _ (by decide)) hmap
    simpa only [BitVec.toNat_ushiftRight, Nat.shiftRight_eq_div_pow, Nat.add_one_sub_one] using heq
  -- bit `j` is one of digit `7 - j / 4`
  have hbit : ∀ (u : Word) (j : ℕ),
      (u.toNat / 2 ^ (4 * (j / 4)) % 2 ^ 4).testBit (j % 4) = u.getLsbD j := by
    intro u j
    have hsplit : j % 4 + 4 * (j / 4) = j := Nat.mod_add_div j 4
    rw [Nat.testBit_mod_two_pow, decide_eq_true (Nat.mod_lt j (by decide)), Bool.true_and,
      Nat.testBit_div_two_pow, hsplit, BitVec.testBit_toNat]
  apply BitVec.eq_of_getLsbD_eq
  intro j hj
  have hplace : 7 - (7 - j / 4) = j / 4 := by omega
  have heq := hdigit (7 - j / 4) (by omega)
  rw [hplace] at heq
  rw [← hbit v j, ← hbit v' j]
  exact congrArg (Nat.testBit · (j % 4)) heq

theorem register_names : ∀ r : Fin 16,
    (∀ s : Fin 16, dezGetRegisterName (regByte r) = dezGetRegisterName (regByte s) → r = s) ∧
      ∀ c ∈ [ch ',', 0x20#8, ch ']'], c ∉ dezGetRegisterName (regByte r) := by
  decide

theorem regByte_surj (hr : r.toNat < 16) : ∃ i, r = regByte i :=
  ⟨⟨r.toNat, hr⟩, BitVec.eq_of_toNat_eq (regByte_toNat ⟨r.toNat, hr⟩).symm⟩

theorem register_inj (hr : r.toNat < 16) (hr' : r'.toNat < 16)
    (h : dezGetRegisterName r = dezGetRegisterName r') : r = r' := by
  obtain ⟨i, rfl⟩ := regByte_surj hr
  obtain ⟨j, rfl⟩ := regByte_surj hr'
  rw [(register_names i).1 j h]

/-- A register name ends at the comma, the blank or the bracket behind it. -/
theorem register_cut (c : Byte) (hc : c ∈ [ch ',', 0x20#8, ch ']']) (hr : r.toNat < 16)
    (hr' : r'.toNat < 16)
    (h : dezGetRegisterName r ++ c :: rest = dezGetRegisterName r' ++ c :: rest') :
    r = r' ∧ rest = rest' := by
  obtain ⟨i, rfl⟩ := regByte_surj hr
  obtain ⟨j, rfl⟩ := regByte_surj hr'
  obtain ⟨hname, hrest⟩ := cut_inj ((register_names i).2 c hc) ((register_names j).2 c hc) h
  exact ⟨register_inj hr hr' hname, hrest⟩

theorem mnemonic_names : ∀ t ∈ DezInstructionType.all, t ∉ unnamed →
    mnemonicOf t ≠ bytes "UNKNOWN" ∧
      ∀ t' ∈ DezInstructionType.all, mnemonicOf t = mnemonicOf t' → t = t' := by
  decide

theorem blank_notMem_mnemonic (opcode : Byte) : 0x20#8 ∉ dezGetInstructionMnemonic opcode := by
  unfold dezGetInstructionMnemonic
  split <;> decide

theorem mnemonic_known (ht : DezInstructionType.ofOpcode (decodeOpcode w) = some t) :
    dezGetInstructionMnemonic (decodeOpcode w) = mnemonicOf t := by
  unfold mnemonicOf dezGetInstructionMnemonic
  rw [ht, DezInstructionType.ofOpcode_opcode]

theorem mnemonic_unknown (h : DezInstructionType.ofOpcode (decodeOpcode w) = none) :
    dezGetInstructionMnemonic (decodeOpcode w) = bytes "UNKNOWN" := by
  unfold dezGetInstructionMnemonic
  rw [h]

/-- The mnemonic ends at the first blank, or with the text. -/
theorem takeWhile_disassembly (w : Word) :
    (disassembly w).takeWhile (· ≠ 0x20#8) = dezGetInstructionMnemonic (decodeOpcode w) := by
  have hname : (dezGetInstructionMnemonic (decodeOpcode w)).takeWhile (· ≠ 0x20#8) =
      dezGetInstructionMnemonic (decodeOpcode w) := by
    rw [List.takeWhile_eq_self_iff]
    intro c hc
    simp only [ne_eq, decide_not, Bool.not_eq_eq_eq_not, Bool.not_true, decide_eq_false_iff_not]
    rintro rfl
    exact blank_notMem_mnemonic _ hc
  have hblank : ∀ rest, (dezGetInstructionMnemonic (decodeOpcode w) ++ 0x20#8 :: rest).takeWhile
      (· ≠ 0x20#8) = dezGetInstructionMnemonic (decodeOpcode w) := by
    intro rest
    rw [takeWhile_stop (by decide), hname]
  unfold disassembly
  dsimp only
  split <;>
    simp only [bytes_blank, bytes_target, bytes_hex, List.append_assoc, List.cons_append,
      List.nil_append, hblank, hname]

theorem mnemonic_of_text (h : disassembly w = disassembly w') :
    dezGetInstructionMnemonic (decodeOpcode w) = dezGetInstructionMnemonic (decodeOpcode w') := by
  rw [← takeWhile_disassembly w, ← takeWhile_disassembly w', h]

/-- The word has no instruction that the disassembler names. -/
def Nameless (w : Word) : Prop :=
  ∀ t, DezInstructionType.ofOpcode (decodeOpcode w) = some t → t ∈ unnamed

theorem mnemonic_nameless (h : Nameless w) :
    dezGetInstructionMnemonic (decodeOpcode w) = bytes "UNKNOWN" := by
  cases ht : DezInstructionType.ofOpcode (decodeOpcode w) with
  | none => exact mnemonic_unknown ht
  | some t =>
    have hmem := h t ht
    rw [mnemonic_known ht]
    cases t with
    | push | pop | jl | jg | jle | jge | call | ret | and | or | xor | not | shl | shr => rfl
    | _ => simp [unnamed] at hmem

/-- The text of a word without a name ends in the whole word. -/
theorem disassembly_nameless (h : Nameless w) :
    ∃ front, disassembly w = front ++ (hexadecimal 8 w ++ bytes ")") := by
  refine ⟨bytes "UNKNOWN" ++ (bytes " 0x" ++ (hexadecimal 2 ((decodeOpcode w).setWidth 32) ++
    bytes " (0x")), ?_⟩
  have hname := mnemonic_nameless h
  unfold disassembly
  simp only [hname, List.append_assoc]
  cases ht : DezInstructionType.ofOpcode (decodeOpcode w) with
  | none => rfl
  | some t =>
    have hmem := h t ht
    cases t with
    | push | pop | jl | jg | jle | jge | call | ret | and | or | xor | not | shl | shr => rfl
    | _ => simp [unnamed] at hmem

theorem eq_of_nameless (hw : Nameless w) (hw' : Nameless w') (h : disassembly w = disassembly w') :
    w = w' := by
  obtain ⟨front, hfront⟩ := disassembly_nameless hw
  obtain ⟨front', hfront'⟩ := disassembly_nameless hw'
  rw [hfront, hfront', ← List.append_assoc, ← List.append_assoc] at h
  have hlength : (hexadecimal 8 w).length = (hexadecimal 8 w').length := by
    simp [hexadecimal]
  exact hexadecimal_inj (List.append_inj_right' (List.append_cancel_right h) hlength)

/-- The fields that the text of a named instruction shows, equal in two words. -/
def SameShown (t : DezInstructionType) (w w' : Word) : Prop :=
  match t with
  | .mov | .load | .store | .jz | .jnz =>
    decodeReg1 w = decodeReg1 w' ∧ decodeImmediate w = decodeImmediate w'
  | .jmp => decodeImmediate w = decodeImmediate w'
  | .add | .sub | .mul | .div | .loadIndexed | .storeIndexed =>
    decodeReg1 w = decodeReg1 w' ∧ decodeReg2 w = decodeReg2 w' ∧ decodeReg3 w = decodeReg3 w'
  | .cmp | .loadIndirect | .storeIndirect =>
    decodeReg1 w = decodeReg1 w' ∧ decodeReg2 w = decodeReg2 w'
  | .sys | .inc | .dec => decodeReg1 w = decodeReg1 w'
  | .halt | .nop => True
  | _ => w = w'

theorem behind_blank (h : mnemonicOf t ++ 0x20#8 :: rest = mnemonicOf t ++ 0x20#8 :: rest') :
    rest = rest' :=
  List.tail_eq_of_cons_eq (List.append_cancel_left h)

/-- A comma and a blank end the register before them. -/
theorem comma_cut (hr : r.toNat < 16) (hr' : r'.toNat < 16)
    (h : dezGetRegisterName r ++ ch ',' :: 0x20#8 :: rest =
      dezGetRegisterName r' ++ ch ',' :: 0x20#8 :: rest') : r = r' ∧ rest = rest' := by
  obtain ⟨hname, hrest⟩ := register_cut (ch ',') (by decide) hr hr' h
  exact ⟨hname, List.tail_eq_of_cons_eq hrest⟩

/-- Two words of one instruction with one text agree in the fields that the text shows. -/
theorem sameShown_of_text (ht : DezInstructionType.ofOpcode (decodeOpcode w) = some t)
    (ht' : DezInstructionType.ofOpcode (decodeOpcode w') = some t)
    (h : disassembly w = disassembly w') : SameShown t w w' := by
  have hlt1 := decodeReg1_lt w
  have hlt1' := decodeReg1_lt w'
  have hlt2 := decodeReg2_lt w
  have hlt2' := decodeReg2_lt w'
  have hlt3 := decodeReg3_lt w
  have hlt3' := decodeReg3_lt w'
  have htext := h
  unfold disassembly at h
  simp only [ht, ht', mnemonic_known ht, mnemonic_known ht', List.append_assoc, bytes_blank,
    bytes_immediate, bytes_bracket, bytes_comma, bytes_target, bytes_plus, bytes_close, bytes_hex,
    bytes_word, bytes_end, List.cons_append, List.nil_append] at h
  cases t with
  | mov | load | jz | jnz =>
    obtain ⟨h1, himm⟩ := comma_cut hlt1 hlt1' (behind_blank h)
    exact ⟨h1, decimal_inj (List.tail_eq_of_cons_eq himm)⟩
  | store =>
    obtain ⟨h1, himm⟩ := comma_cut hlt1 hlt1' (behind_blank h)
    exact ⟨h1, decimal_inj (List.append_cancel_right (List.tail_eq_of_cons_eq himm))⟩
  | jmp =>
    exact decimal_inj (List.tail_eq_of_cons_eq (behind_blank h))
  | add | sub | mul | div =>
    obtain ⟨h1, hrest⟩ := comma_cut hlt1 hlt1' (behind_blank h)
    obtain ⟨h2, hrest⟩ := comma_cut hlt2 hlt2' hrest
    exact ⟨h1, h2, register_inj hlt3 hlt3' hrest⟩
  | loadIndexed | storeIndexed =>
    obtain ⟨h1, hrest⟩ := comma_cut hlt1 hlt1' (behind_blank h)
    obtain ⟨h2, hrest⟩ :=
      register_cut 0x20#8 (by decide) hlt2 hlt2' (List.tail_eq_of_cons_eq hrest)
    simp only [List.cons.injEq, true_and] at hrest
    exact ⟨h1, h2, register_inj hlt3 hlt3' (List.append_cancel_right hrest)⟩
  | cmp =>
    obtain ⟨h1, hrest⟩ := comma_cut hlt1 hlt1' (behind_blank h)
    exact ⟨h1, register_inj hlt2 hlt2' hrest⟩
  | loadIndirect | storeIndirect =>
    obtain ⟨h1, hrest⟩ := comma_cut hlt1 hlt1' (behind_blank h)
    exact ⟨h1, register_inj hlt2 hlt2' (List.append_cancel_right (List.tail_eq_of_cons_eq hrest))⟩
  | sys =>
    exact (register_cut (ch ',') (by decide) hlt1 hlt1' (behind_blank h)).1
  | inc | dec => exact register_inj hlt1 hlt1' (behind_blank h)
  | halt | nop => exact trivial
  | push | pop | jl | jg | jle | jge | call | ret | and | or | xor | not | shl | shr =>
    refine eq_of_nameless ?_ ?_ htext
    · intro t hsome
      cases ht.symm.trans hsome
      decide
    · intro t hsome
      cases ht'.symm.trans hsome
      decide

/-- A named instruction and a word without a name have different mnemonics. -/
theorem nameless_of_text (hw : Nameless w) (h : disassembly w = disassembly w') : Nameless w' := by
  intro t ht
  by_contra hn
  have hmnemonic := mnemonic_of_text h
  rw [mnemonic_nameless hw, mnemonic_known ht] at hmnemonic
  exact (mnemonic_names t (mem_all t) hn).1 hmnemonic.symm

/-- Equal texts are of one word, or of two words of one instruction that agree in the fields
shown. -/
theorem cases_of_text (h : disassembly w = disassembly w') : w = w' ∨
    ∃ t, DezInstructionType.ofOpcode (decodeOpcode w) = some t ∧
      DezInstructionType.ofOpcode (decodeOpcode w') = some t ∧ SameShown t w w' := by
  by_cases hw : Nameless w
  · exact .inl (eq_of_nameless hw (nameless_of_text hw h) h)
  · simp only [Nameless, not_forall] at hw
    obtain ⟨t, ht, hn⟩ := hw
    cases ht' : DezInstructionType.ofOpcode (decodeOpcode w') with
    | none =>
      have hw' : Nameless w' := by
        intro t' hsome
        cases ht'.symm.trans hsome
      exact absurd (nameless_of_text hw' h.symm t ht) hn
    | some t' =>
      have hmnemonic := mnemonic_of_text h
      rw [mnemonic_known ht, mnemonic_known ht'] at hmnemonic
      obtain rfl := (mnemonic_names t (mem_all t) hn).2 t' (mem_all t') hmnemonic
      exact .inr ⟨t, ht, rfl, sameShown_of_text ht ht' h⟩

end Dez.Disassembler
