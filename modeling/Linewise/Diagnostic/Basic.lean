import Linewise.Statement
/-!
Diagnostics: what was found, how severe it is and where. A bag keeps them in the order in which they
were reported; a stage that has no bag to report to reports nothing.
-/
namespace Linewise

inductive Severity where
  | error
  | warning
  | fatal
  deriving DecidableEq, Inhabited

def Severity.name : Severity → Bytes
  | .error => utf8 "error"
  | .warning => utf8 "warning"
  | .fatal => utf8 "fatal"

inductive Finding where
  | invalidStatement
  | lineEndingMismatch
  | deadTrailingEmit
  | unknownOpcode
  | malformedLiteral
  | missingHalt
  | trailingAfterHalt
  deriving DecidableEq, Inhabited

namespace Finding

def name : Finding → Bytes
  | .invalidStatement => utf8 "InvalidStatement"
  | .lineEndingMismatch => utf8 "LineEndingMismatch"
  | .deadTrailingEmit => utf8 "DeadTrailingEmit"
  | .unknownOpcode => utf8 "QirUnknownOpcode"
  | .malformedLiteral => utf8 "QirMalformedLiteral"
  | .missingHalt => utf8 "QirMissingHalt"
  | .trailingAfterHalt => utf8 "QirTrailingAfterHalt"

def all : List Finding :=
  [.invalidStatement, .lineEndingMismatch, .deadTrailingEmit, .unknownOpcode, .malformedLiteral,
    .missingHalt, .trailingAfterHalt]

end Finding

/-- A located finding; the arguments fill the placeholders of its message. -/
structure Diagnostic where
  severity : Severity
  finding : Finding
  span : Span
  args : List Bytes
  deriving DecidableEq

namespace Diagnostic

/-- Points at the marker byte of an invalid line. -/
def invalidMarker (s : Statement) : Diagnostic :=
  ⟨.error, .invalidStatement, ⟨s.span.file, s.span.lo, s.span.lo + 1⟩,
    [Decimal.ofSignedWord s.line]⟩

/-- Covers the whole statement at which a run failed. -/
def invalidStatement (e : InvalidStatement) : Diagnostic :=
  ⟨.error, .invalidStatement, e.span, [Decimal.ofSignedWord e.line]⟩

/-- Covers an emit that no later print observes. -/
def deadEmit (s : Statement) : Diagnostic :=
  ⟨.warning, .deadTrailingEmit, s.span, [Decimal.ofSignedWord s.line]⟩

/-- Points at the first line feed inside a line. -/
def lineEnding (file : UInt32) (l : Line) : Diagnostic :=
  let lf := l.start + UInt32.ofNat (l.text.idxOf Byte.lf)
  ⟨.warning, .lineEndingMismatch, ⟨file, lf, lf + 1⟩, [Decimal.ofSignedWord l.number]⟩

/-- What one logical line of a source gives rise to. -/
def ofLine (file : UInt32) (l : Line) : List Diagnostic :=
  let s := Statement.ofText file l.number l.start l.text
  (if l.bareLf then [lineEnding file l] else []) ++
    if s.kind = .invalid then [invalidMarker s] else []

def ofSource (source : Bytes) (file : UInt32) (rule : Newline) : List Diagnostic :=
  (rule.split source).flatMap (ofLine file)

end Diagnostic

/-- Reported diagnostics, oldest first. -/
structure Bag where
  diagnostics : List Diagnostic := []
  deriving DecidableEq, Inhabited

namespace Bag

def report (b : Bag) (ds : List Diagnostic) : Bag := ⟨b.diagnostics ++ ds⟩

def count (severity : Severity) (b : Bag) : UInt32 :=
  UInt32.ofNat (b.diagnostics.countP fun d => d.severity = severity)

def errors (b : Bag) : UInt32 := b.count .error
def warnings (b : Bag) : UInt32 := b.count .warning
def fatals (b : Bag) : UInt32 := b.count .fatal

/-- Errors and fatal errors together. -/
def issues (b : Bag) : UInt32 := b.errors + b.fatals

def hasError (b : Bag) : Bool := b.errors != 0 || b.fatals != 0
def hasFatal (b : Bag) : Bool := b.fatals != 0

def has (finding : Finding) (b : Bag) : Bool := b.diagnostics.any fun d => d.finding = finding

end Bag

/-- Reads a source into a program and reports what its lines give rise to. -/
def Program.read (source : Bytes) (file : UInt32) (rule : Newline) (bag : Option Bag) :
    Program × Option Bag :=
  (Program.ofSource source file rule, bag.map (·.report (Diagnostic.ofSource source file rule)))

/-- Reads a source and refuses it at its first invalid line. -/
def Program.readValid (source : Bytes) (file : UInt32) (rule : Newline) (bag : Option Bag) :
    Except InvalidStatement Program × Option Bag :=
  let read := Program.read source file rule bag
  (read.1.check, read.2)

end Linewise
