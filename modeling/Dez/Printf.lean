import Dez.CString

/-! What `printf` prints, for the conversions of strings and of numbers that are not negative. -/
namespace Dez

/-- An argument of `printf`. -/
inductive Arg
  | num (value : ℕ)
  | str (text : List Byte)
  deriving DecidableEq

/-- What stands between `%` and the conversion: `-`, `0` and the width. -/
structure Directive where
  left : Bool
  zero : Bool
  width : ℕ

namespace Directive

def plain : Directive := ⟨false, false, 0⟩

/-- The text in its field. -/
def pad (directive : Directive) (text : List Byte) : List Byte :=
  let places := directive.width - text.length
  if directive.left then text ++ List.replicate places (ch ' ')
  else List.replicate places (if directive.zero then ch '0' else ch ' ') ++ text

end Directive

def numeral (base : ℕ) (upper : Bool) (n : ℕ) : List Byte :=
  (Nat.toDigits base n).map fun c => ch (if upper then c.toUpper else c)

/-- `%s`, `%d`, `%u`, `%x` and `%X` -/
def conversion (c : Byte) : Arg → List Byte
  | .str text => text
  | .num value =>
    if c = ch 'x' then numeral 16 false value
    else if c = ch 'X' then numeral 16 true value
    else numeral 10 false value

/-- The rest of a format, behind a `%` or not; `l` and `z` only say how wide the argument is. -/
def formatted : Option Directive → List Byte → List Arg → List Byte
  | _, [], _ => []
  | none, c :: format, args =>
    if c = ch '%' then formatted (some .plain) format args else c :: formatted none format args
  | some directive, c :: format, args =>
    if c = ch '-' then formatted (some { directive with left := true }) format args
    else if c = ch '0' ∧ directive.width = 0 then
      formatted (some { directive with zero := true }) format args
    else if 48 ≤ c.toNat ∧ c.toNat ≤ 57 then
      formatted (some { directive with width := 10 * directive.width + (c.toNat - 48) }) format args
    else if c = ch 'l' ∨ c = ch 'z' then formatted (some directive) format args
    else
      match args with
      | [] => formatted none format []
      | arg :: args => directive.pad (conversion c arg) ++ formatted none format args

/-- What `printf(format, args)` prints. -/
def printfText (format : String) (args : List Arg) : List Byte := formatted none (bytes format) args

example : printfText "%-6s|0x%08X: %4u%02x (%zu)\n"
    [.str (bytes "A"), .num 0xAB, .num 12, .num 10, .num 0] =
      bytes "A     |0x000000AB:   120a (0)\n" := by decide

end Dez
