import Linewise.Listing.Verify
/-!
Lowering to LLVM assembly text. The text holds one constant for each distinct literal, the helpers
that the calls need and a main function that makes one call for each live instruction. What is not
needed is not declared.
-/
namespace Linewise

/-- A call that the main function makes; literals name their constant by their bytes. -/
inductive Call where
  | append (literal : Bytes)
  | printBuffer
  | writeLine (literal : Bytes)
  deriving DecidableEq

namespace Call

/-- The call of an instruction; appending nothing needs none. -/
def ofOp? : Op → Option Call
  | .append text => if text.isEmpty then none else some (.append text)
  | .print => some .printBuffer
  | .printLiteral text => some (.writeLine text)
  | .halt => none

def literal? : Call → Option Bytes
  | .append text | .writeLine text => some text
  | .printBuffer => none

def appends : Call → Bool
  | .append _ => true
  | .printBuffer | .writeLine _ => false

def printsBuffer : Call → Bool
  | .printBuffer => true
  | .append _ | .writeLine _ => false

def writes : Call → Bool
  | .printBuffer | .writeLine _ => true
  | .append _ => false

end Call

/-- A main function: for each live instruction its source line and its call. -/
structure Assembly where
  body : List (UInt32 × Option Call)
  deriving DecidableEq

/-- What is written above the code of an assembly text. -/
structure AssemblyHeader where
  moduleName : Bytes := utf8 "quill.qir"
  /-- The target triple; an empty one is left out. -/
  target : Bytes := []
  deriving DecidableEq

namespace Assembly

def ofListing (l : Listing) : Assembly := ⟨l.live.map fun i => (i.line, Call.ofOp? i.op)⟩

def calls (a : Assembly) : List Call := a.body.filterMap (·.2)

/-- The distinct literals, in the order of their first use. -/
def constants (a : Assembly) : List Bytes := (a.calls.filterMap (·.literal?)).eraseDups

def appends (a : Assembly) : Bool := a.calls.any (·.appends)
def printsBuffer (a : Assembly) : Bool := a.calls.any (·.printsBuffer)
def writes (a : Assembly) : Bool := a.calls.any (·.writes)

/-- Whether any call touches the text built up so far. -/
def hasBuffer (a : Assembly) : Bool := a.appends || a.printsBuffer

/-- The written form of a byte inside a constant. -/
def escapeByte (b : UInt8) : Bytes :=
  if 0x20 ≤ b ∧ b ≤ 0x7E ∧ b ≠ Byte.backslash ∧ b ≠ Byte.quote then [b]
  else Byte.backslash :: Byte.upperHex b

def symbol (index : Nat) : Bytes := utf8 ".quill_text." ++ Decimal.ofNat index

def constantRow (literal : Bytes) (index : Nat) : Bytes :=
  utf8 "@" ++ symbol index ++ utf8 " = private unnamed_addr constant [" ++
    Decimal.ofNat literal.length ++ utf8 " x i8] c\"" ++ literal.flatMap escapeByte ++
    utf8 "\", align 1\n"

def constantRows (constants : List Bytes) : Bytes :=
  constants.zipIdx.flatMap (fun c => constantRow c.1 c.2) ++
    Bytes.when (!constants.isEmpty) (utf8 "\n")

/-- The constant of a literal and its length, as arguments of a call. -/
def argument (constants : List Bytes) (literal : Bytes) : Bytes :=
  utf8 "ptr @" ++ symbol (constants.idxOf literal) ++ utf8 ", i64 " ++
    Decimal.ofNat literal.length

def callRow (constants : List Bytes) : Call → Bytes
  | .append text =>
    utf8 "  call void @quill_append(ptr %buf, " ++ argument constants text ++ utf8 ")\n"
  | .printBuffer => utf8 "  call void @quill_print_current(ptr %buf)\n"
  | .writeLine text =>
    utf8 "  call void @quill_write_line(" ++ argument constants text ++ utf8 ")\n"

/-- A comment with the source line, unless there is none, and the call, unless there is none. -/
def bodyRows (constants : List Bytes) (step : UInt32 × Option Call) : Bytes :=
  Bytes.when (step.1 != 0) (utf8 "  ; line " ++ Decimal.ofWord step.1 ++ utf8 "\n") ++
    (step.2.map (callRow constants)).getD []

def typeRows : Bytes := Bytes.ofRows ["%quill.buf = type \x7b ptr, i64 \x7d", ""]

def newlineRows : Bytes :=
  Bytes.ofRows ["@.quill_newline = private unnamed_addr constant [1 x i8] c\"\\0A\", align 1", ""]

def writeDeclaration : Bytes := Bytes.ofRows ["declare i64 @write(i32, ptr, i64)"]

def appendDeclarations : Bytes :=
  Bytes.ofRows ["declare ptr @realloc(ptr, i64)", "declare ptr @memcpy(ptr, ptr, i64)",
    "declare void @abort()"]

def freeDeclaration : Bytes := Bytes.ofRows ["declare void @free(ptr)"]

/-- Writes bytes and a line feed to the standard output. -/
def writeLineHelper : Bytes :=
  Bytes.ofRows ["define internal void @quill_write_line(ptr %p, i64 %n) \x7b",
    "entry:",
    "  %w0 = call i64 @write(i32 1, ptr %p, i64 %n)",
    "  %w1 = call i64 @write(i32 1, ptr @.quill_newline, i64 1)",
    "  ret void",
    "\x7d",
    ""]

/-- Grows the buffer by a copy of some bytes, or aborts. -/
def appendHelper : Bytes :=
  Bytes.ofRows ["define internal void @quill_append(ptr %buf, ptr %src, i64 %n) \x7b",
    "entry:",
    "  %data.p = getelementptr inbounds %quill.buf, ptr %buf, i32 0, i32 0",
    "  %len.p = getelementptr inbounds %quill.buf, ptr %buf, i32 0, i32 1",
    "  %data = load ptr, ptr %data.p, align 8",
    "  %len = load i64, ptr %len.p, align 8",
    "  %new.len = add i64 %len, %n",
    "  %new.data = call ptr @realloc(ptr %data, i64 %new.len)",
    "  %oom = icmp eq ptr %new.data, null",
    "  br i1 %oom, label %fail, label %copy",
    "fail:",
    "  call void @abort()",
    "  unreachable",
    "copy:",
    "  %dst = getelementptr inbounds i8, ptr %new.data, i64 %len",
    "  %ignored = call ptr @memcpy(ptr %dst, ptr %src, i64 %n)",
    "  store ptr %new.data, ptr %data.p, align 8",
    "  store i64 %new.len, ptr %len.p, align 8",
    "  ret void",
    "\x7d",
    ""]

/-- Writes the buffer as a line. -/
def printBufferHelper : Bytes :=
  Bytes.ofRows ["define internal void @quill_print_current(ptr %buf) \x7b",
    "entry:",
    "  %data.p = getelementptr inbounds %quill.buf, ptr %buf, i32 0, i32 0",
    "  %len.p = getelementptr inbounds %quill.buf, ptr %buf, i32 0, i32 1",
    "  %data = load ptr, ptr %data.p, align 8",
    "  %len = load i64, ptr %len.p, align 8",
    "  call void @quill_write_line(ptr %data, i64 %len)",
    "  ret void",
    "\x7d",
    ""]

/-- Sets up an empty buffer. -/
def bufferSetup : Bytes :=
  Bytes.ofRows ["  %buf = alloca %quill.buf, align 8",
    "  store %quill.buf zeroinitializer, ptr %buf, align 8"]

/-- Gives the buffer's bytes back. -/
def bufferRelease : Bytes :=
  Bytes.ofRows ["  %final.data.p = getelementptr inbounds %quill.buf, ptr %buf, i32 0, i32 0",
    "  %final.data = load ptr, ptr %final.data.p, align 8",
    "  call void @free(ptr %final.data)"]

/-- The main function, whose calls name the constants by their positions. -/
def mainRows (a : Assembly) (constants : List Bytes) : Bytes :=
  Bytes.ofRows ["define i32 @main() \x7b", "entry:"] ++ Bytes.when a.hasBuffer bufferSetup ++
    a.body.flatMap (bodyRows constants) ++ Bytes.when a.hasBuffer bufferRelease ++
    Bytes.ofRows ["  ret i32 0", "\x7d"]

/-- The text below the header: type, constants, declarations, helpers and the main function. -/
def code (a : Assembly) : Bytes :=
  let constants := a.constants
  Bytes.when a.hasBuffer typeRows ++ constantRows constants ++ Bytes.when a.writes newlineRows ++
    Bytes.when a.writes writeDeclaration ++ Bytes.when a.appends appendDeclarations ++
    Bytes.when a.hasBuffer freeDeclaration ++ utf8 "\n" ++
    Bytes.when a.writes writeLineHelper ++ Bytes.when a.appends appendHelper ++
    Bytes.when a.printsBuffer printBufferHelper ++ a.mainRows constants

end Assembly

/-- The comment, the file name and the target above the code, with an empty line after them. -/
def AssemblyHeader.write (h : AssemblyHeader) : Bytes :=
  utf8 "; ModuleID = '" ++ h.moduleName ++ utf8 "'\n" ++
    utf8 "source_filename = \"" ++ h.moduleName ++ utf8 "\"\n" ++
    Bytes.when (!h.target.isEmpty) (utf8 "target triple = \"" ++ h.target ++ utf8 "\"\n") ++
    utf8 "\n"

def Listing.lower (h : AssemblyHeader) (l : Listing) : Except (List Misplaced) Bytes :=
  let misplaced := l.verify l.strictness
  if misplaced.isEmpty then .ok (h.write ++ (Assembly.ofListing l).code) else .error misplaced

end Linewise
