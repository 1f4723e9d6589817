import Linewise.Diagnostic.Render
import Linewise.Dump
import Linewise.Files.Sink
import Linewise.RunSettings
/-!
The tool: from a command line and a disk to an exit code, two output streams and the disk that the
run leaves behind.
-/
namespace Linewise

/-- What surrounds a run of the tool. -/
structure Host where
  disk : Disk
  env : Environment
  /-- Tells this run's temporary files from those of others. -/
  tag : Bytes

/-- What a run of the tool leaves behind. -/
structure Outcome where
  exit : UInt8
  stdout : Bytes
  stderr : Bytes
  disk : Disk
  deriving DecidableEq

namespace Tool

def version : Bytes := utf8 "quill v0.1.0 (qs core)\n"

def usage : Bytes :=
  Bytes.ofRows
    ["quillc",
      "  --version",
      "  interpret <src.qs>",
      "  jit <src.qs>",
      "  compile <src.qs> -o <out>",
      "  compile-optimized <src.qs> -o <out>",
      "  run <program.qir>",
      "",
      "Options:",
      "  --newline crlf|lf|universal   (line splitting rule, default universal)",
      "  --lang en|ko",
      "  --context N",
      "  --emit qir|llvm-ir|object     (compile output format, default qir)",
      "  --dump stmts|qir",
      "  -Wdead-emit                   (warn on emits after the last print)",
      "  --target <triple> --cpu <name> -O0..-O3",
      "  --config <path> | --no-config",
      "  -v                            (verbose)"]

/-- A line on the error stream under a word that says how serious it is. -/
def note (severity : String) (text : Bytes) : Bytes :=
  utf8 severity ++ utf8 ": " ++ text ++ utf8 "\n"

/-- Diagnostics as they are shown on the error stream. -/
def display (s : RunSettings) (m : SourceMap) (ds : List Diagnostic) : Bytes :=
  ds.flatMap fun d => d.render s.language m s.context ++ utf8 "\n"

/-- The strategy of a mode that takes a source. -/
def strategy : Mode → Strategy
  | .compile | .compileOptimized => .aheadOfTime
  | .jit => .inMemory
  | .usage | .version | .interpret | .run => .interpreter

/-- Runs a compiled listing. Everything is checked before anything is printed. -/
def runListing (o : Options) (s : RunSettings) (name content : Bytes) : UInt8 × Bytes × Bytes :=
  let (m, file) := SourceMap.add [] ⟨name, content, .universal⟩
  let read := Listing.read content file (some {})
  match read.1 with
  | none => (1, [], display s m (read.2.getD {}).diagnostics)
  | some l =>
    let misplaced := l.verify l.strictness
    if misplaced.isEmpty then
      (0, Execution.stream l.execute.outputs, if o.dump = .listing then l.dump else [])
    else (1, [], misplaced.flatMap fun p => note "error" p.error.text)

def dump (o : Options) (s : RunSettings) (p : Program) : Bytes :=
  match o.dump with
  | .none => []
  | .statements => p.dump
  | .listing =>
    match (p.buildWith s.compile.optimize false none).1 with
    | .ok l => l.dump
    | .error _ => utf8 "\nQIR: skipped because the program contains an invalid statement.\n"

/-- What is said about a finished run. -/
def report (o : Options) (s : RunSettings) (m : SourceMap) (r : RunResult) : Bytes :=
  if r.ok then
    if o.verbose then
      r.messages.flatMap (fun n => note "info" n.text) ++
        note "info" ((strategy o.mode).name ++ utf8 " finished, " ++ Decimal.ofWord r.outputs ++
          utf8 " output(s)")
    else []
  else
    match r.invalid with
    | some e =>
      display s m [.invalidStatement e] ++
        note "error" (o.mode.name ++ utf8 " failed at line " ++ Decimal.ofWord e.line)
    | none => (r.messages.filter (·.isError)).flatMap fun n => note "error" n.text

/-- Runs a source by the strategy of its mode. Warnings about its lines come first; its invalid
lines are left to the strategy, which decides where the run fails. -/
def runSource (h : Host) (o : Options) (s : RunSettings) (name content : Bytes) : Outcome :=
  let (m, file) := SourceMap.add [] ⟨name, content, s.newline⟩
  let read := Program.read content file s.newline (some {})
  let warnings := (read.2.getD {}).diagnostics.filter fun d => d.severity = .warning
  let strategy := strategy o.mode
  let ends : Endpoints Disk :=
    { hasOutput := true
      sink := if strategy = .aheadOfTime then some (Disk.sink h.tag o.output) else none
      bag := some {} }
  let run := strategy.run s.compile ends read.1 h.disk
  { exit := if run.result.ok then 0 else 1
    stdout := Execution.stream run.outputs
    stderr :=
      display s m warnings ++ dump o s read.1 ++ display s m (run.bag.getD {}).diagnostics ++
        report o s m run.result
    disk := run.memory }

/-- Runs the input file of a command line that was read without an error. -/
def runInput (h : Host) (o : Options) : Outcome :=
  let loaded := RunSettings.load h.disk h.env o
  let s := loaded.1
  let before := o.warnings.flatMap (note "warning") ++ loaded.2
  match h.disk.openFile o.input with
  | .error reason => ⟨1, [], before ++ note "error" reason, h.disk⟩
  | .ok content =>
    let name := h.disk.normalize o.input
    if o.mode = .run then
      let ran := runListing o s name content
      ⟨ran.1, ran.2.1, before ++ ran.2.2, h.disk⟩
    else
      let outcome := runSource h o s name content
      { outcome with stderr := before ++ outcome.stderr }

def run (h : Host) (args : List Bytes) : Outcome :=
  if args.isEmpty then ⟨0, version ++ usage, [], h.disk⟩
  else
    let o := Options.read args
    match o.error with
    | some e => ⟨1, [], note "error" e.message ++ usage, h.disk⟩
    | none =>
      match o.mode with
      | .version => ⟨0, version, [], h.disk⟩
      | .usage => ⟨0, usage, [], h.disk⟩
      | .interpret | .compile | .compileOptimized | .jit | .run => runInput h o

end Tool
end Linewise
