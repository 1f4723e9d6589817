import Linewise.Decimal
import Linewise.Line
/-!
Statements. Each logical line is one statement whose kind is fixed by the line's first byte, and a
program is the list of them. Invalid lines stay in the program; who runs it decides when to fail.
-/
namespace Linewise

structure Span where
  file : UInt32
  lo : UInt32
  hi : UInt32
  deriving DecidableEq, Inhabited

inductive Kind where
  | comment
  | emit
  | print
  | invalid
  deriving DecidableEq, Inhabited

namespace Kind

def name : Kind → Bytes
  | .comment => utf8 "comment"
  | .emit => utf8 "emit"
  | .print => utf8 "print"
  | .invalid => utf8 "invalid"

/-- `#` opens a comment, `p` a print and `t` is reserved; every other line is text to emit. -/
def ofLine : Bytes → Kind
  | [] => .emit
  | b :: _ =>
    if b = 0x70 then .print
    else if b = 0x74 then .invalid
    else if b = Byte.hash then .comment
    else .emit

end Kind

/-- A classified line. Only an emit statement read from a source has a payload. -/
structure Statement where
  kind : Kind
  payload : Bytes
  line : UInt32
  span : Span
  deriving DecidableEq, Inhabited

/-- The statement of a line that starts at an offset of a file. -/
def Statement.ofText (file number start : UInt32) (text : Bytes) : Statement :=
  let kind := Kind.ofLine text
  { kind := kind
    payload := if kind = .emit then text else []
    line := number
    span := ⟨file, start, start + UInt32.ofNat text.length⟩ }

/-- A line with the reserved marker was met where it may not be ignored. -/
structure InvalidStatement where
  line : UInt32
  span : Span
  deriving DecidableEq

/-- The message of a run that stopped at an invalid statement. -/
def InvalidStatement.describe (e : InvalidStatement) : Bytes :=
  utf8 "invalid statement at line " ++ Decimal.ofWord e.line

abbrev Program := List Statement

namespace Program

/-- Statements of lines numbered from `number`, the first of them `offset` bytes into the source. -/
def ofLinesFrom (number offset : UInt32) : List Bytes → Program
  | [] => []
  | text :: rest =>
    Statement.ofText 0 number offset text ::
      ofLinesFrom (number + 1) (offset + UInt32.ofNat text.length + 1) rest

/-- The program of lines that are already apart; spans are those of the lines ended by one byte. -/
def ofLines (lines : List Bytes) : Program := ofLinesFrom 1 0 lines

/-- The program of a source, one statement for each logical line. -/
def ofSource (source : Bytes) (file : UInt32) (rule : Newline) : Program :=
  (rule.split source).map fun l => Statement.ofText file l.number l.start l.text

def count (kind : Kind) (p : Program) : UInt32 := UInt32.ofNat (p.countP fun s => s.kind = kind)

/-- The position of the first invalid statement, or the number of statements. -/
def firstInvalidIndex (p : Program) : Nat := p.findIdx fun s => s.kind = .invalid

/-- The first invalid statement, as the failure that it causes. -/
def firstInvalid? (p : Program) : Option InvalidStatement :=
  (p.find? fun s => s.kind = .invalid).map fun s => ⟨s.line, s.span⟩

/-- The program itself, unless it has an invalid statement. -/
def check (p : Program) : Except InvalidStatement Program :=
  match p.firstInvalid? with
  | some e => .error e
  | none => .ok p

/-- The program of lines that are already apart, unless it has an invalid statement. -/
def ofValidLines (lines : List Bytes) : Except InvalidStatement Program := (ofLines lines).check

end Program
end Linewise
