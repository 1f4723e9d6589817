import Linewise.Display
import Linewise.Statement
/-!
The source map: files under consecutive numbers, and where a span lies in them. Lines are those of
the file's own newline rule, and columns are display columns counted from one.
-/
namespace Linewise

structure SourceFile where
  name : Bytes
  content : Bytes
  newline : Newline
  deriving DecidableEq, Inhabited

/-- A line number and a display column, both from one. -/
structure Location where
  line : UInt32 := 1
  column : UInt32 := 1
  deriving DecidableEq, Inhabited

/-- A span's first line, with the place of its carets. -/
structure Snippet where
  text : Bytes := []
  line : UInt32 := 1
  column : UInt32 := 1
  caretsBefore : UInt32 := 0
  carets : UInt32 := 1
  deriving DecidableEq

/-- A span's first line among its neighbours. -/
structure Block where
  firstLine : UInt32 := 1
  lines : List Bytes
  caretOffset : UInt32 := 0
  caretsBefore : UInt32 := 0
  carets : UInt32 := 1
  column : UInt32 := 1
  deriving DecidableEq

namespace SourceFile

def lines (f : SourceFile) : List Line := f.newline.split f.content

/-- The position among `lines` of the last line that starts at the offset or before it. -/
def lineIndex (lines : List Line) (offset : UInt32) : Nat :=
  (lines.takeWhile fun l => l.start ≤ offset).length - 1

/-- The line of an offset; the last line also owns what lies beyond it. -/
def lineAt? (f : SourceFile) (offset : UInt32) : Option Line :=
  f.lines[lineIndex f.lines offset]?

/-- How far into the line's text an offset of the file lies. -/
def within (l : Line) (offset : UInt32) : UInt32 :=
  if l.start < offset then min (offset - l.start) (UInt32.ofNat l.text.length) else 0

/-- The columns of a line's text between two of its offsets. -/
def columns (l : Line) (lo hi : UInt32) : UInt32 :=
  UInt32.ofNat (l.text.columnsBetween lo.toNat hi.toNat)

def locate (f : SourceFile) (offset : UInt32) : Location :=
  match f.lineAt? offset with
  | none => {}
  | some l => ⟨l.number, columns l 0 (within l offset) + 1⟩

/-- The snippet of a span, which is cut to the line on which it starts. -/
def snippet (f : SourceFile) (span : Span) : Snippet :=
  match f.lineAt? span.lo with
  | none => {}
  | some l =>
    let lo := within l span.lo
    let hi := if l.start < span.hi then max lo (within l span.hi) else lo
    let before := columns l 0 lo
    { text := l.text
      line := l.number
      column := before + 1
      caretsBefore := before
      carets := max 1 (columns l lo hi) }

/-- The lines around a span, up to `context` of them on each side. The position of the last one is
a word and wraps around, so a context near the largest word hides lines instead of showing all. -/
def block (f : SourceFile) (span : Span) (context : UInt32) : Block :=
  match f.lineAt? span.lo with
  | none => { lines := [[]] }
  | some _ =>
    let snippet := f.snippet span
    let lines := f.lines
    let index := UInt32.ofNat (lineIndex lines span.lo)
    let first := if context < index then index - context else 0
    let last := min (index + context) (UInt32.ofNat (lines.length - 1))
    let shown := (lines.drop first.toNat).take (last.toNat + 1 - first.toNat)
    { firstLine := (lines[first.toNat]?.map (·.number)).getD 1
      lines := shown.map (·.text)
      caretOffset := index - first
      caretsBefore := snippet.caretsBefore
      carets := snippet.carets
      column := snippet.column }

end SourceFile

/-- The files of a session; a file's number is its position. -/
abbrev SourceMap := List SourceFile

namespace SourceMap

/-- Adds a file and tells its number. -/
def add (m : SourceMap) (f : SourceFile) : SourceMap × UInt32 := (m ++ [f], UInt32.ofNat m.length)

/-- The file of a number that was given out. -/
def file (m : SourceMap) (number : UInt32) : SourceFile := m.getD number.toNat default

end SourceMap
end Linewise
