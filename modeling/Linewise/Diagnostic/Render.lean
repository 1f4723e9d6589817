import Linewise.Diagnostic.Message
import Linewise.SourceMap
/-!
Rendered diagnostics. A diagnostic is shown with its message, its location and either the one line
that it points at or that line among its neighbours, with carets below the span.
-/
namespace Linewise.Diagnostic

/-- The message, the location and an empty margin: the rows above the source lines. -/
def heading (language : Language) (m : SourceMap) (d : Diagnostic) : Bytes :=
  let f := m.file d.span.file
  let place := f.locate d.span.lo
  d.severity.name ++ utf8 "[" ++ d.finding.name ++ utf8 "]: " ++ d.message language ++ utf8 "\n" ++
    utf8 " --> " ++ f.name ++ utf8 ":" ++ Decimal.ofWord place.line ++ utf8 ":" ++
    Decimal.ofWord place.column ++ utf8 "\n" ++ utf8 "  |\n"

def caretRow (before carets : UInt32) : Bytes :=
  Bytes.fill before.toNat Byte.space ++ Bytes.fill carets.toNat 0x5E

/-- The diagnostic with the one line that its span starts on. -/
def renderLine (language : Language) (m : SourceMap) (d : Diagnostic) : Bytes :=
  let s := (m.file d.span.file).snippet d.span
  d.heading language m ++ Decimal.ofWord s.line ++ utf8 " | " ++ s.text ++ utf8 "\n" ++
    utf8 "  | " ++ caretRow s.caretsBefore s.carets

/-- The rows of a block from its line `index` on, numbered in a column of `width` digits. -/
def blockRows (b : Block) (width : Nat) (index : UInt32) : List Bytes → Bytes
  | [] => []
  | text :: rest =>
    let number := Decimal.ofWord (b.firstLine + index)
    utf8 "  " ++ Bytes.fill (width - number.length) Byte.space ++ number ++ utf8 " | " ++ text ++
      utf8 "\n" ++
      (if index = b.caretOffset then
        utf8 "  " ++ Bytes.fill width Byte.space ++ utf8 " | " ++
          caretRow b.caretsBefore b.carets ++ utf8 "\n"
      else []) ++
      blockRows b width (index + 1) rest

/-- The diagnostic with up to `context` lines on each side of the one that its span starts on. -/
def renderBlock (language : Language) (m : SourceMap) (context : UInt32) (d : Diagnostic) : Bytes :=
  let b := (m.file d.span.file).block d.span context
  let lastNumber := b.firstLine + UInt32.ofNat b.lines.length - 1
  d.heading language m ++ blockRows b (Decimal.ofWord lastNumber).length 0 b.lines

/-- The diagnostic as the tool shows it: with no context, the one line only. -/
def render (language : Language) (m : SourceMap) (context : UInt32) (d : Diagnostic) : Bytes :=
  if context = 0 then d.renderLine language m else d.renderBlock language m context

end Linewise.Diagnostic
