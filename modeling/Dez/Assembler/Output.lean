import Dez.Buffer
import Dez.ProgramFile
import Dez.Assembler.Parser

/-! The assembler of `dez_assembler.c`: the string data it adds to the words, and its files. -/
namespace Dez.Assembler
variable {capacity : ℕ}

/-- `assembler_t`; the capacity is the size of the allocated buffer. -/
structure DezAssembler (capacity : ℕ) where
  symbolTable : SymbolTable
  outputBuffer : CArray Word capacity
  outputSize : ℕ
  verbose : Bool
  printed : List Message

/-- `allocated` is what `malloc` found in the buffer's memory. -/
def assemblerInit (verbose : Bool) (allocated : CArray Word capacity) : DezAssembler capacity where
  symbolTable := symbolTableInit
  outputBuffer := allocated
  outputSize := 0
  verbose := verbose
  printed := []

namespace DezAssembler

def print (assembler : DezAssembler capacity) (out : List Message) : DezAssembler capacity :=
  { assembler with printed := assembler.printed ++ out }

/-- What is printed in verbose mode only. -/
def note (assembler : DezAssembler capacity) (out : List Message) : DezAssembler capacity :=
  if assembler.verbose then assembler.print out else assembler

end DezAssembler

namespace Symbol

/-- The entries whose text goes into the output. -/
def isString (sym : Symbol) : Bool := sym.type = .string && sym.defined

/-- The text with its terminator. -/
def text (sym : Symbol) : List Byte := sym.stringValue.chars ++ [0#8]

/-- The address behind the text. -/
def endAddr (sym : Symbol) : Word := sym.address + BitVec.ofNat 32 sym.text.length

/-- The number of words up to the end of the text, its address counting bytes. -/
def endWord (sym : Symbol) : ℕ := (sym.endAddr.toNat + 3) / 4

/-- The text padded to whole words. -/
def padded (sym : Symbol) : List Byte :=
  sym.text ++ List.replicate ((sym.text.length + 3) / 4 * 4 - sym.text.length) 0#8

end Symbol

/-- The loop that copies the strings behind the words. The address is the index of a word where the
string is copied to, and the number of a byte everywhere else. -/
def appendStrings :
    List Symbol → DezAssembler capacity → Except Fault (Bool × DezAssembler capacity)
  | [], assembler => return (true, assembler)
  | sym :: symbols, assembler =>
    if sym.isString then
      if sym.endAddr.toNat > capacity * 4 then
        return (false, assembler.print [.stringDataExceeds])
      else do
        let outputBuffer ← assembler.outputBuffer.memcpy (4 * sym.address.toNat) sym.text
        let outputSize :=
          if sym.endWord > assembler.outputSize then sym.endWord else assembler.outputSize
        let assembler := { assembler with outputBuffer := outputBuffer, outputSize := outputSize }
        appendStrings symbols (assembler.note [.stored sym.stringValue.chars sym.address])
    else appendStrings symbols assembler

/-- `assembler_assemble_string`; the words and their number stay in the assembler. -/
def assemblerAssembleString (stale : ℕ → Word → ℕ → Word) (assembler : DezAssembler capacity)
    (input : List Byte) : Except Fault (Bool × DezAssembler capacity) :=
  let assembler := assembler.note [.starting]
  let (success, parser) :=
    parserParse stale (parserInit input assembler.symbolTable assembler.outputBuffer)
  -- the parser works on the assembler's own symbol table and buffer
  let assembler := { assembler with
    symbolTable := parser.symbolTable, outputBuffer := parser.output }.print parser.printed
  if success then do
    let assembler := { assembler with outputSize := parser.outputSize }
    let (success, assembler) ← appendStrings assembler.symbolTable.symbols assembler
    let words ← assembler.outputBuffer.readFront assembler.outputSize
    return (success, assembler.note
      [.completed, .symbols assembler.symbolTable.symbols, .generatedCode words])
  else return (false, assembler.print [.assemblyFailed])

/-- The padded texts, in the order of the symbol table. -/
def stringData (symbols : List Symbol) : List Byte :=
  (symbols.filter Symbol.isString).flatMap Symbol.padded

def writeBinaryFileWithStrings (data : CArray Word capacity) (count : ℕ)
    (symbolTable : SymbolTable) : Except Fault (List Byte) := do
  let words ← data.readFront count
  return wordBytes (BitVec.ofNat 32 count) ++ words.flatMap wordBytes ++
    stringData symbolTable.symbols

/-- `"%08X\n"` -/
def hexLine (w : Word) : List Byte :=
  (List.range 8).map (fun i =>
    (bytes "0123456789ABCDEF").getD ((w >>> (4 * (7 - i))).toNat % 16) 0) ++ [newline]

def writeHexFile (data : CArray Word capacity) (count : ℕ) : Except Fault (List Byte) := do
  let words ← data.readFront count
  return bytes "v2.0 raw\n" ++ words.flatMap hexLine

/-- `strstr(output_file, ".hex")` -/
def isHexFile (outputFile : List Byte) : Bool := bytes ".hex" <:+: outputFile

/-- `assembler_assemble_file`: its result, and the bytes it hands to the opened output file. The
input file is its bytes, or nothing when it cannot be read. What `fwrite`, `fprintf` and `fclose`
return is not looked at: whether the bytes arrive has no part in the result. -/
def assemblerAssembleFile (stale : ℕ → Word → ℕ → Word) (assembler : DezAssembler capacity)
    (inputFile outputFile : List Byte) (contents : Option (List Byte)) (writable : Bool) :
    Except Fault (Bool × Option (List Byte) × DezAssembler capacity) :=
  match contents with
  | none => return (false, none, assembler.print [.couldNotRead inputFile])
  | some input => do
    let assembler := assembler.note [.assembling inputFile]
    let (success, assembler) ← assemblerAssembleString stale assembler input
    if !success then return (false, none, assembler)
    else if !writable then return (false, none, assembler.print [.couldNotWrite outputFile])
    else
      let file ← if isHexFile outputFile then
          writeHexFile assembler.outputBuffer assembler.outputSize
        else
          writeBinaryFileWithStrings assembler.outputBuffer assembler.outputSize
            assembler.symbolTable
      return (true, some file, assembler.print [.assembled assembler.outputSize outputFile])

end Dez.Assembler
