import Linewise.Assembly
import Linewise.Proofs.Decimal
/-!
What an assembly text says, read from its lines alone. Some lines define a constant, and between the
opening and the closing line of the main function some lines call a helper. Running the text is
making these calls in order, with a buffer that starts empty.
-/
namespace Linewise

/-- A constant as a text defines it: its name, the size that is declared and the bytes it holds. -/
structure Constant where
  name : Bytes
  size : Nat
  bytes : Bytes
  deriving DecidableEq

/-- A backslash and two hexadecimal digits are one byte; any other byte stands for itself. -/
def unescape : Bytes → Bytes
  | b :: h₁ :: h₂ :: rest =>
    if b = Byte.backslash then
      match Byte.hexValue? h₁, Byte.hexValue? h₂ with
      | some v₁, some v₂ => (v₁ * 16 + v₂) :: unescape rest
      | _, _ => b :: unescape (h₁ :: h₂ :: rest)
    else b :: unescape (h₁ :: h₂ :: rest)
  | s => s

def Constant.ofLine? (line : Bytes) : Option Constant := do
  let s ← line.dropPrefix? (utf8 "@.quill_text.")
  let index := s.takeWhile Byte.isDigit
  let s ← (s.dropWhile Byte.isDigit).dropPrefix? (utf8 " = ")
  let s ← (s.dropWhile (· != Byte.openBracket)).dropPrefix? (utf8 "[")
  let size ← Decimal.natural? (s.takeWhile Byte.isDigit)
  let s ← (s.dropWhile Byte.isDigit).dropPrefix? (utf8 " x i8] c\"")
  if Byte.quote ∈ s then
    some ⟨utf8 ".quill_text." ++ index, size, unescape (s.takeWhile (· != Byte.quote))⟩
  else none

/-- A call as a text spells it: literals are named by their constants, with a count of bytes. -/
inductive NamedCall where
  | append (name : Bytes) (count : Nat)
  | printBuffer
  | writeLine (name : Bytes) (count : Nat)
  deriving DecidableEq

namespace NamedCall

/-- The name and the count in the last arguments of a call. -/
def argumentOf? (s : Bytes) : Option (Bytes × Nat) := do
  let s ← s.dropPrefix? (utf8 "ptr @")
  let name := s.takeWhile (· != 0x2C)
  let s ← (s.dropWhile (· != 0x2C)).dropPrefix? (utf8 ", i64 ")
  let count ← Decimal.natural? (s.takeWhile Byte.isDigit)
  if s.dropWhile Byte.isDigit = utf8 ")" then some (name, count) else none

/-- Reads what follows the common part of the helpers' names. -/
def ofHelper? (s : Bytes) : Option NamedCall :=
  match s.dropPrefix? (utf8 "append(ptr %buf, ") with
  | some s => (argumentOf? s).map fun a => .append a.1 a.2
  | none =>
    match s.dropPrefix? (utf8 "write_line(") with
    | some s => (argumentOf? s).map fun a => .writeLine a.1 a.2
    | none => if s = utf8 "print_current(ptr %buf)" then some .printBuffer else none

def ofLine? (line : Bytes) : Option NamedCall :=
  (line.dropPrefix? (utf8 "  call void @quill_")).bind ofHelper?

def argument? : NamedCall → Option (Bytes × Nat)
  | .append name count | .writeLine name count => some (name, count)
  | .printBuffer => none

end NamedCall

/-- The buffer of a running main function, and what it has written. -/
structure Machine where
  buffer : Bytes := []
  written : Bytes := []
  deriving DecidableEq

namespace Machine

def append (m : Machine) (bytes : Bytes) : Machine := { m with buffer := m.buffer ++ bytes }

def writeLine (m : Machine) (bytes : Bytes) : Machine :=
  { m with written := m.written ++ (bytes ++ [Byte.lf]) }

end Machine

/-- The constants that a text defines and the calls of its main function. -/
structure AssemblyReading where
  constants : List Constant
  calls : List NamedCall
  deriving DecidableEq

namespace AssemblyReading

def mainLine : Bytes := utf8 "define i32 @main() \x7b"

def closingLine : Bytes := utf8 "\x7d"

/-- The lines after the opening line of the main function and before its closing one. -/
def mainLines (lines : List Bytes) : List Bytes :=
  ((lines.dropWhile (· != mainLine)).drop 1).takeWhile (· != closingLine)

def ofText (text : Bytes) : AssemblyReading :=
  let lines := text.splitOn Byte.lf
  ⟨lines.filterMap Constant.ofLine?, (mainLines lines).filterMap NamedCall.ofLine?⟩

def constant? (r : AssemblyReading) (name : Bytes) : Option Constant :=
  r.constants.find? fun c => c.name = name

/-- Makes a call, which fails if its constant is not defined. -/
def step (r : AssemblyReading) (m : Machine) : NamedCall → Option Machine
  | .append name count => (r.constant? name).map fun c => m.append (c.bytes.take count)
  | .printBuffer => some (m.writeLine m.buffer)
  | .writeLine name count => (r.constant? name).map fun c => m.writeLine (c.bytes.take count)

/-- What the calls write, made in the order in which they stand in the text. -/
def run (r : AssemblyReading) : Option Bytes := (r.calls.foldlM r.step {}).map (·.written)

end AssemblyReading
end Linewise
