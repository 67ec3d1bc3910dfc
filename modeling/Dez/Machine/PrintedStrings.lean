import Dez.Machine.Effects

/-! What `PRINT_STR` prints: the string at an address, its escape sequences replaced. -/
namespace Dez.Machine

def backslash : Byte := 0x5C

/-- The letters `n`, `t`, `r`, backslash and double quote, with the characters that they name. -/
def escapes : List (Byte × Byte) :=
  [(0x6E, 0x0A), (0x74, 0x09), (0x72, 0x0D), (backslash, backslash), (0x22, 0x22)]

/-- From left to right, a backslash and a letter of the table become the character that the letter
names; every other backslash stays. -/
def unescape : List Byte → List Byte
  | [] => []
  | [c] => [c]
  | c :: d :: s =>
    if c = backslash then
      match escapes.lookup d with
      | some e => e :: unescape s
      | none => c :: unescape (d :: s)
    else c :: unescape (d :: s)

/-- The bytes from an address up to the first zero byte or the end of the window at `0x200`. -/
def stringAt (mem : DezMemory) (a : ℕ) : List Byte :=
  ((List.range (0x200 - a)).map fun i => mem.byte (a + i)).takeWhile (· ≠ 0#8)

variable {mem : DezMemory} {vm : DezVm} {a fuel : ℕ} {pos w : Word} {c d e : Byte} {s : List Byte}

theorem escape_eq_lookup (b : Byte) : printStr.escape b = escapes.lookup b := by
  revert b
  decide

theorem unescape_cons_of_ne (hc : c ≠ backslash) (s : List Byte) :
    unescape (c :: s) = c :: unescape s := by
  cases s with
  | nil => rfl
  | cons d s => rw [unescape, if_neg hc]

theorem unescape_escape (h : escapes.lookup d = some e) (s : List Byte) :
    unescape (backslash :: d :: s) = e :: unescape s := by
  rw [unescape, if_pos rfl, h]

/-- A backslash stays where the string ends behind it or another letter follows. -/
theorem unescape_backslash (h : ∀ d t, s = d :: t → escapes.lookup d = none) :
    unescape (backslash :: s) = backslash :: unescape s := by
  cases s with
  | nil => rfl
  | cons d s => rw [unescape, if_pos rfl, h d s rfl]

theorem stringAt_of_ge (h : 0x200 ≤ a) : stringAt mem a = [] := by
  rw [stringAt, show 0x200 - a = 0 by omega]
  rfl

theorem stringAt_of_lt (h : a < 0x200) :
    stringAt mem a = if mem.byte a = 0#8 then [] else mem.byte a :: stringAt mem (a + 1) := by
  have hrange : 0x200 - a = (0x200 - (a + 1)) + 1 := by omega
  unfold stringAt
  rw [hrange, List.range_succ_eq_map, List.map_cons, List.map_map, List.takeWhile_cons]
  have hnext : (fun i => mem.byte (a + i)) ∘ Nat.succ = fun i => mem.byte (a + 1 + i) := by
    funext i
    simp [Nat.add_comm, Nat.add_left_comm]
  by_cases h0 : mem.byte a = 0#8
  · simp [h0]
  · simp [h0, hnext]

/-- An escape letter is not the terminator, so the string goes on with it. -/
theorem stringAt_of_escape (h : a < 0x200) (he : escapes.lookup (mem.byte a) = some e) :
    stringAt mem a = mem.byte a :: stringAt mem (a + 1) := by
  rw [stringAt_of_lt h, if_neg]
  intro h0
  rw [h0] at he
  cases he

theorem head_stringAt (h : stringAt mem a = d :: s) : a < 0x200 ∧ d = mem.byte a := by
  by_cases ha : a < 0x200
  · rw [stringAt_of_lt ha] at h
    split at h
    · cases h
    · cases h
      exact ⟨ha, rfl⟩
  · rw [stringAt_of_ge (Nat.le_of_not_lt ha)] at h
    cases h

/-- The character that a pass of the loop finds escaped at an address. -/
def escapedAt (mem : DezMemory) (a : ℕ) : Option Byte :=
  if mem.byte a = backslash ∧ a + 1 < 0x200 then escapes.lookup (mem.byte (a + 1)) else none

/-- One pass of the loop below the limit. -/
theorem printStr_pass (mem : DezMemory) (fuel : ℕ) (hpos : pos.toNat < 0x200) :
    printStr mem (fuel + 1) pos =
      if mem.byte pos.toNat = 0#8 then .ok []
      else match escapedAt mem pos.toNat with
        | some e => (printStr mem fuel (pos + 2#32)).map (.putc e :: ·)
        | none => (printStr mem fuel (pos + 1#32)).map (.putc (mem.byte pos.toNat) :: ·) := by
  have hnext : (pos + 1#32).toNat = pos.toNat + 1 := by bv_omega
  obtain ⟨out1, h1⟩ := printStr_ok mem fuel (pos + 1#32)
  obtain ⟨out2, h2⟩ := printStr_ok mem fuel (pos + 2#32)
  rw [printStr, if_pos hpos, memoryReadByte_of_lt (by omega), ok_bind, hnext, h1, h2]
  unfold escapedAt
  by_cases h0 : mem.byte pos.toNat = 0#8
  · simp only [h0]
    rfl
  by_cases hesc : mem.byte pos.toNat = backslash ∧ pos.toNat + 1 < 0x200
  · obtain ⟨hb, hlim⟩ := hesc
    have hread : memoryReadByte mem (pos + 1#32) = .ok (mem.byte (pos.toNat + 1), []) := by
      rw [memoryReadByte_of_lt (by omega), hnext]
    simp only [hb, hlim, hread, backslash, ok_bind, escape_eq_lookup]
    cases escapes.lookup (mem.byte (pos.toNat + 1)) <;> rfl
  · have htest :
        (decide (mem.byte pos.toNat = 0x5C#8) && decide (pos.toNat + 1 < 0x200)) = false := by
      simpa [backslash] using hesc
    simp only [h0, htest, hesc]
    rfl

/-- What a pass prints and where it goes on is what `unescape` does to the front of the string. -/
theorem unescape_stringAt (h : a < 0x200) (h0 : mem.byte a ≠ 0#8) :
    unescape (stringAt mem a) = match escapedAt mem a with
      | some e => e :: unescape (stringAt mem (a + 2))
      | none => mem.byte a :: unescape (stringAt mem (a + 1)) := by
  rw [stringAt_of_lt h, if_neg h0]
  unfold escapedAt
  by_cases hb : mem.byte a = backslash
  case neg =>
    rw [unescape_cons_of_ne hb, if_neg (fun h => hb h.1)]
  rw [hb]
  cases he : (if backslash = backslash ∧ a + 1 < 0x200 then escapes.lookup (mem.byte (a + 1))
      else none) with
  | some e =>
    split at he
    case isFalse => cases he
    case isTrue hlim =>
      rw [stringAt_of_escape hlim.2 he]
      exact unescape_escape he _
  | none =>
    refine unescape_backslash ?_
    intro d s hs
    obtain ⟨hlim, rfl⟩ := head_stringAt hs
    rwa [if_pos ⟨rfl, hlim⟩] at he

/-- With a pass for each byte left of the window, the loop prints the unescaped string. -/
theorem printStr_unescape (mem : DezMemory) (hfuel : 0x200 - pos.toNat ≤ fuel) :
    printStr mem fuel pos = .ok ((unescape (stringAt mem pos.toNat)).map .putc) := by
  induction fuel generalizing pos with
  | zero =>
    rw [stringAt_of_ge (by omega)]
    rfl
  | succ fuel ih =>
    by_cases hpos : pos.toNat < 0x200
    case neg =>
      rw [printStr, if_neg hpos, stringAt_of_ge (by omega)]
      rfl
    have hnext : (pos + 1#32).toNat = pos.toNat + 1 := by bv_omega
    have hnext2 : (pos + 2#32).toNat = pos.toNat + 2 := by bv_omega
    rw [printStr_pass mem fuel hpos, @ih (pos + 1#32) (by omega), @ih (pos + 2#32) (by omega),
      hnext, hnext2]
    by_cases h0 : mem.byte pos.toNat = 0#8
    · rw [if_pos h0, stringAt_of_lt hpos, if_pos h0]
      rfl
    · rw [if_neg h0, unescape_stringAt hpos h0]
      cases escapedAt mem pos.toNat <;> rfl

/-- `SYS` with `PRINT_STR` and the address in a register: the loop ends within a pass for each
byte of the window, the unescaped string is the whole output, and nothing else changes. -/
theorem executeSys_printStr (vm : DezVm) (hw : decodeImmediate w = 2#32) :
    let a := vm.reg (reg1 w)
    let out := (unescape (stringAt vm.memory a.toNat)).map Output.putc
    (∀ fuel, 0x200 - a.toNat ≤ fuel → printStr vm.memory fuel a = .ok out) ∧
      executeSys vm w = .ok { vm with stdout := vm.stdout ++ out } := by
  intro a out
  have hprint : ∀ fuel, 0x200 - a.toNat ≤ fuel → printStr vm.memory fuel a = .ok out :=
    fun fuel hfuel => printStr_unescape vm.memory hfuel
  refine ⟨hprint, ?_⟩
  have hstr : printedStr vm.memory a = out := by
    rw [printedStr, hprint _ (Nat.le_refl _)]
  rw [executeSys_eq, sysEffect, hw]
  exact congrArg (fun out => Except.ok (vm.print out)) hstr

/-- `A`, an escaped newline, and a backslash that ends the string. -/
theorem executeSys_printStr_escape :
    let vm : DezVm := { dezVmInit with memory := memoryInit.put 0 0x415C6E5C#32 }
    decodeImmediate 0x0D000002#32 = 2#32 ∧ executeSys vm 0x0D000002#32 =
      .ok { vm with stdout := [.putc 0x41, .putc 0x0A, .putc 0x5C] } := by
  intro vm
  have hprinted : (unescape (stringAt vm.memory (vm.reg (reg1 0x0D000002#32)).toNat)).map
      Output.putc = [.putc 0x41, .putc 0x0A, .putc 0x5C] := by decide +kernel
  refine ⟨rfl, ?_⟩
  rw [(executeSys_printStr vm rfl).2, hprinted]
  rfl

/-- Two escapes, an escaped backslash before a letter, and a backslash that ends the string. -/
example : unescape [0x5C, 0x6E, 0x5C, 0x5C, 0x74, 0x5C, 0x22, 0x5C] =
    [0x0A, 0x5C, 0x74, 0x22, 0x5C] := by decide

end Dez.Machine
