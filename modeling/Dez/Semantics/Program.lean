import Dez.BoundedStack
import Dez.PartialRuns
import Dez.Machine.PrintedStrings

/-! What a program means, apart from how it is encoded: its instructions are a list that no step
changes, its stack is a stack, and a comparison leaves an ordering. -/
namespace Dez.Semantics
open Machine (Output DezVmState unescape)

/-- A register or a number. -/
inductive Source
  | register (r : Fin 16)
  | number (n : Word)
  deriving DecidableEq

/-- Where in memory an instruction reads or writes. -/
inductive Address
  | direct (a : Word)
  | indirect (r : Fin 16)
  | indexed (base index : Fin 16)
  deriving DecidableEq

inductive Arithmetic
  | add | sub | mul
  deriving DecidableEq

inductive Bitwise
  | and | or | xor
  deriving DecidableEq

inductive Shift
  | left | right
  deriving DecidableEq

inductive Condition
  | equal | notEqual | less | greater | lessOrEqual | greaterOrEqual
  deriving DecidableEq

inductive Instr
  | mov (r : Fin 16) (n : Word)
  | load (r : Fin 16) (a : Address)
  | store (r : Fin 16) (a : Address)
  | arithmetic (op : Arithmetic) (r a : Fin 16) (b : Source)
  | div (r a : Fin 16) (b : Source)
  | bitwise (op : Bitwise) (r a b : Fin 16)
  | shift (op : Shift) (r a b : Fin 16)
  | not (r a : Fin 16)
  | inc (r : Fin 16)
  | dec (r : Fin 16)
  | cmp (a : Fin 16) (b : Source)
  | jmp (target : ℕ)
  | jumpIf (condition : Condition) (target : ℕ)
  | push (r : Fin 16)
  | pop (r : Fin 16)
  | call (target : ℕ)
  | ret
  | sys (r : Fin 16) (call : Word)
  | halt
  | nop
  | unknown (opcode : Byte)
  deriving DecidableEq

/-- The state of a program; what it keeps in memory is apart from its code and its stack. -/
structure State where
  regs : Fin 16 → Word
  pc : ℕ
  /-- The outcome of the last comparison. -/
  compared : Option Ordering
  stack : BoundedStack Word 2048
  data : ℕ → Word
  status : DezVmState
  stdout : List Output

def Arithmetic.apply : Arithmetic → Word → Word → Word
  | add, a, b => a + b
  | sub, a, b => a - b
  | mul, a, b => a * b

def Bitwise.apply : Bitwise → Word → Word → Word
  | and, a, b => a &&& b
  | or, a, b => a ||| b
  | xor, a, b => a ^^^ b

def Shift.apply : Shift → Word → ℕ → Word
  | left, a, n => a <<< n
  | right, a, n => a >>> n

/-- Before the first comparison nothing is equal and nothing in order. -/
def Condition.holds : Condition → Option Ordering → Bool
  | equal, o => o = some .eq
  | notEqual, o => o ≠ some .eq
  | less, o => o = some .lt
  | greater, o => o = some .gt
  | lessOrEqual, o => o = some .lt ∨ o = some .eq
  | greaterOrEqual, o => o = some .gt ∨ o = some .eq

def Source.value (s : State) : Source → Word
  | register r => s.regs r
  | number n => n

def Address.value (s : State) : Address → Word
  | direct a => a
  | indirect r => s.regs r
  | indexed base index => s.regs base + s.regs index

/-- The string in a program's data, from an address of a byte up to a zero or the end at `0x200`. -/
def textAt (data : ℕ → Word) (a : ℕ) : List Byte :=
  ((List.range (0x200 - a)).map fun i =>
    byteOf (data ((a + i) / 4)) (3 - (a + i) % 4)).takeWhile (· ≠ 0#8)

namespace State

def goto (s : State) (pc : ℕ) : State := { s with pc := pc }

def goOn (s : State) : State := s.goto (s.pc + 1)

def set (s : State) (r : Fin 16) (v : Word) : State := { s with regs := Function.update s.regs r v }

def print (s : State) (out : List Output) : State := { s with stdout := s.stdout ++ out }

def stop (s : State) (status : DezVmState) : State := { s with status := status }

def fail (s : State) (out : Output) : State := (s.print [out]).stop .error

def put (s : State) (a : ℕ) (v : Word) : State := { s with data := Function.update s.data a v }

/-- A value on the stack, or the end in an error when the stack is full. -/
def push (s : State) (name : String) (v : Word) (goOn : State → State) : State :=
  match s.stack.push v with
  | some stack => goOn { s with stack := stack }
  | none => s.fail (.printf ("Error: Stack overflow in " ++ name ++ " instruction\n") [])

/-- The last value off the stack, or the end in an error when the stack is empty. -/
def pop (s : State) (name : String) (goOn : Word → State → State) : State :=
  match s.stack.pop with
  | some (v, stack) => goOn v { s with stack := stack }
  | none => s.fail (.printf ("Error: Stack underflow in " ++ name ++ " instruction\n") [])

end State

/-- A program of `n` instructions has its data behind the code and below the stack. -/
def isData (n a : ℕ) : Bool := n ≤ a && a < 0x800

/-- The message of an address outside the memory. -/
def outOfBounds (name : String) (a : Word) : Output :=
  .printf ("Error: Memory address 0x%04X out of bounds in " ++ name ++ " instruction\n") [a]

def Address.loadName : Address → String
  | direct _ => "LOAD"
  | indirect _ => "LOAD_INDIRECT"
  | indexed _ _ => "LOAD_INDEXED"

def Address.storeName : Address → String
  | direct _ => "STORE"
  | indirect _ => "STORE_INDIRECT"
  | indexed _ _ => "STORE_INDEXED"

/-- The code segment is closed to every store whose address comes from a register. -/
def Address.refuses (s : State) : Address → Bool
  | direct _ => false
  | a => (a.value s).toNat < 0x400

/-- The system calls; a string is printed from the data only. -/
def execSys (n : ℕ) (s : State) (r : Fin 16) (call : Word) : Option State :=
  match call.toNat with
  | 1 => some (s.print [.printf "R%d = %d\n" [BitVec.ofNat 32 r, s.regs r]]).goOn
  | 2 =>
    if 0x200 ≤ (s.regs r).toNat ∨ n ≤ (s.regs r).toNat / 4 then
      some (s.print ((unescape (textAt s.data (s.regs r).toNat)).map .putc)).goOn
    else none
  | 3 => some (s.print [.putc ((s.regs r).setWidth 8)]).goOn
  | 6 => some ((s.print [.printf "Program exited with code %d\n" [s.regs r]]).stop .halted)
  | _ => some (s.print [.printf "Unknown system call: %d\n" [call]]).goOn

/-- One instruction of a program of `n`. A program that reads or writes its code or the cells of its
stack, shifts by 32 or more, or jumps on a condition to the jump itself has no meaning. -/
def exec (n : ℕ) (s : State) : Instr → Option State
  | .mov r v => some (s.set r v).goOn
  | .load r a =>
    if 4096 ≤ (a.value s).toNat then some (s.fail (outOfBounds a.loadName (a.value s)))
    else if isData n (a.value s).toNat then some (s.set r (s.data (a.value s).toNat)).goOn
    else none
  | .store r a =>
    if 4096 ≤ (a.value s).toNat then some (s.fail (outOfBounds a.storeName (a.value s)))
    else if a.refuses s then
      some (s.print [.printf "Error: Write to read-only memory at address 0x%04X\n"
        [a.value s]]).goOn
    else if isData n (a.value s).toNat then some (s.put (a.value s).toNat (s.regs r)).goOn
    else none
  | .arithmetic op r a b => some (s.set r (op.apply (s.regs a) (b.value s))).goOn
  | .div r a b =>
    if b.value s = 0#32 then some (s.fail (.printf "Error: Division by zero\n" []))
    else some (s.set r (s.regs a / b.value s)).goOn
  | .bitwise op r a b => some (s.set r (op.apply (s.regs a) (s.regs b))).goOn
  | .shift op r a b =>
    if (s.regs b).toNat < 32 then some (s.set r (op.apply (s.regs a) (s.regs b).toNat)).goOn
    else none
  | .not r a => some (s.set r (~~~(s.regs a))).goOn
  | .inc r => some (s.set r (s.regs r + 1#32)).goOn
  | .dec r => some (s.set r (s.regs r - 1#32)).goOn
  | .cmp a b =>
    some { s with compared := some (compare (s.regs a).toNat (b.value s).toNat) }.goOn
  | .jmp target => some (s.goto target)
  | .jumpIf condition target =>
    if condition.holds s.compared then
      if target = s.pc then none else some (s.goto target)
    else some s.goOn
  | .push r => some (s.push "PUSH" (s.regs r) State.goOn)
  | .pop r => some (s.pop "POP" fun v s => (s.set r v).goOn)
  | .call target => some (s.push "CALL" (BitVec.ofNat 32 (s.pc + 1)) fun s => s.goto target)
  | .ret => some (s.pop "RET" fun v s => s.goto v.toNat)
  | .sys r call => execSys n s r call
  | .halt => some ((s.print [.printf "Program halted\n" []]).stop .halted)
  | .nop => some s.goOn
  | .unknown opcode =>
    some (s.fail (.printf "Error: Unknown instruction 0x%02X at PC %04X\n"
      [opcode.setWidth 32, BitVec.ofNat 32 s.pc]))

/-- One step. A program that has stopped stays as it is, and one that runs past its instructions has
no meaning. -/
def next (program : List Instr) (s : State) : Option State :=
  if s.status ≠ .running then some s
  else program[s.pc]?.bind (exec program.length s)

/-- A program before its first step, with the data it finds. -/
def start (data : ℕ → Word) : State where
  regs := fun _ => 0
  pc := 0
  compared := none
  stack := .empty
  data := data
  status := .running
  stdout := []

end Dez.Semantics
