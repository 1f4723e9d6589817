import Linewise.Assembly
import Linewise.Interpreter
import Linewise.Listing.Build
import Linewise.Listing.Reader
import Linewise.Sink
/-!
The three strategies. A program is interpreted statement by statement, built in memory and executed,
or compiled ahead of time to an artifact that a sink keeps. Building is all or nothing, so the last
two show nothing of a program that has an invalid statement anywhere.
-/
namespace Linewise

/-- A note of a run to its user. -/
structure Message where
  isError : Bool
  text : Bytes
  deriving DecidableEq

def Message.error (text : Bytes) : Message := ⟨true, text⟩
def Message.info (text : Bytes) : Message := ⟨false, text⟩

structure RunResult where
  ok : Bool := false
  invalid : Option InvalidStatement := none
  persistFailure : Option PersistFailure := none
  outputs : UInt32 := 0
  messages : List Message := []
  deriving DecidableEq, Inhabited

namespace RunResult

/-- A run that ended as it should after some outputs. -/
def success (outputs : UInt32) : RunResult := { ok := true, outputs := outputs }

/-- A run that an invalid statement stopped after some outputs. -/
def invalidAfter (outputs : UInt32) (e : InvalidStatement) : RunResult :=
  { invalid := some e, outputs := outputs, messages := [.error e.describe] }

/-- A run that could not start. -/
def unable (reason : Bytes) : RunResult := { messages := [.error reason] }

end RunResult

/-- The values that a run printed, and what it reports. -/
structure Execution where
  outputs : List Bytes
  result : RunResult
  deriving DecidableEq

/-- What a stream shows of the printed values: each of them on a line of its own. -/
def Execution.stream (outputs : List Bytes) : Bytes := outputs.flatMap (· ++ [Byte.lf])

/-- Executes instructions up to the first halt, with `text` built up before them. -/
def Listing.executeFrom (t : Transcript) (text : Bytes) : List Instr → Transcript
  | [] => t
  | i :: rest =>
    match i.op with
    | .append more => executeFrom t (text ++ more) rest
    | .print => executeFrom (t.add text) text rest
    | .printLiteral value => executeFrom (t.add value) text rest
    | .halt => t

def Listing.execute (l : Listing) : Execution :=
  let t := executeFrom {} [] l.instrs
  ⟨t.values, .success t.count⟩

namespace Program

/-- Interprets a program; what it printed before an invalid statement stays printed. -/
def interpret (p : Program) : Execution :=
  let (t, ending) := (Interpreter.ofProgram p).runTo {}
  match ending with
  | .done => ⟨t.values, .success t.count⟩
  | .failed e => ⟨t.values, .invalidAfter t.count e⟩

/-- Builds a program in memory and executes the listing at once. -/
def buildAndRun (optimize : Bool) (p : Program) : Execution :=
  match (p.buildWith optimize false none).1 with
  | .error e => ⟨[], .invalidAfter 0 e⟩
  | .ok l => l.execute

end Program

inductive Artifact where
  | listing
  | assembly
  | object
  deriving DecidableEq, Inhabited

def Artifact.title : Artifact → Bytes
  | .listing => utf8 "QIR"
  | .assembly => utf8 "LLVM-IR"
  | .object => utf8 "object"

structure CompileOptions where
  optimize : Bool := false
  warnDeadEmits : Bool := false
  artifact : Artifact := .listing
  optLevel : UInt8 := 0
  target : Bytes := []
  cpu : Bytes := []
  deriving DecidableEq, Inhabited

/-- The error of a misplaced instruction. -/
def Misplaced.error (m : Misplaced) : Message := .error (utf8 "QIR verify failed: " ++ m.message)

/-- Objects need a code generator, which this tool does not have. -/
def objectUnavailable : Message :=
  .error (utf8 "LLVM toolchain is not available in this build. " ++
    utf8 "Object emission requires linking LLVM.")

/-- The bytes of a listing's artifact, or the errors that prevent it. -/
def Listing.artifact (options : CompileOptions) (l : Listing) : Except (List Message) Bytes :=
  match options.artifact with
  | .listing => .ok l.write
  | .assembly =>
    match l.lower { target := options.target } with
    | .ok text => .ok text
    | .error ms => .error (ms.map (·.error))
  | .object =>
    match l.lower { target := options.target } with
    | .ok _ => .error [objectUnavailable]
    | .error ms => .error (ms.map (·.error))

/-- What the optimizing builder achieved. -/
def Listing.foldNote (l : Listing) : Message :=
  .info (utf8 "optimized: folded " ++ Decimal.ofWord l.stats.emitsFolded ++
    utf8 " emit(s), eliminated " ++ Decimal.ofWord l.stats.deadEmits ++
    utf8 " dead emit(s), " ++ Decimal.ofNat l.instrs.length ++ utf8 " instruction(s)")

/-- Hands an artifact to a sink. `notes` are the messages so far. -/
def Sink.keep {σ : Type} (sink : Sink σ) (artifact : Artifact) (notes : List Message)
    (bytes : Bytes) (s : σ) : RunResult × σ :=
  let asked := sink.persist bytes s
  match asked.1 with
  | .kept =>
    ({ ok := true
       messages :=
        notes ++ [.info (utf8 "wrote " ++ artifact.title ++ utf8 " to " ++ sink.target)] },
      asked.2)
  | .refused failure =>
    ({ persistFailure := failure
       messages :=
        notes ++ [.error ((failure.map (·.describe)).getD (utf8 "persist failed"))] },
      asked.2)

/-- Verifies a built listing, makes its artifact and hands it to a sink. -/
def Listing.persist {σ : Type} (options : CompileOptions) (sink : Sink σ) (l : Listing) (s : σ) :
    RunResult × σ :=
  let misplaced := l.verify (if options.optimize then .optimized else .any)
  if misplaced.isEmpty then
    let notes := if options.optimize then [l.foldNote] else []
    match l.artifact options with
    | .error errors => ({ messages := notes ++ errors }, s)
    | .ok bytes => sink.keep options.artifact notes bytes s
  else ({ messages := misplaced.map (·.error) }, s)

/-- Compiles a program and hands the artifact to a sink, which a failed build never reaches. -/
def Program.compile {σ : Type} (options : CompileOptions) (sink : Sink σ) (p : Program)
    (bag : Option Bag) (s : σ) : RunResult × Option Bag × σ :=
  let built := p.buildWith options.optimize options.warnDeadEmits bag
  match built.1 with
  | .error e => (.invalidAfter 0 e, built.2, s)
  | .ok l =>
    let persisted := l.persist options sink s
    (persisted.1, built.2, persisted.2)

inductive Strategy where
  | interpreter
  | inMemory
  | aheadOfTime
  deriving DecidableEq, Inhabited

def Strategy.name : Strategy → Bytes
  | .interpreter => utf8 "interp"
  | .inMemory => utf8 "jit"
  | .aheadOfTime => utf8 "aot"

/-- Where a run may print, keep its artifact and report; a strategy uses only what it needs. -/
structure Endpoints (σ : Type) where
  /-- Whether there is a channel to print to. -/
  hasOutput : Bool
  sink : Option (Sink σ)
  bag : Option Bag

/-- The outcome of a run at its endpoints. -/
structure Run (σ : Type) where
  outputs : List Bytes
  result : RunResult
  bag : Option Bag
  memory : σ

/-- Runs a program by a strategy. Without the endpoint that the strategy needs nothing is run. -/
def Strategy.run {σ : Type} (strategy : Strategy) (options : CompileOptions) (ends : Endpoints σ)
    (p : Program) (s : σ) : Run σ :=
  match strategy with
  | .interpreter =>
    if ends.hasOutput then
      let e := p.interpret
      ⟨e.outputs, e.result, ends.bag, s⟩
    else ⟨[], .unable (utf8 "interpreter requires an output channel."), ends.bag, s⟩
  | .inMemory =>
    if ends.hasOutput then
      let e := p.buildAndRun options.optimize
      ⟨e.outputs, e.result, ends.bag, s⟩
    else ⟨[], .unable (utf8 "JIT backend requires an output channel."), ends.bag, s⟩
  | .aheadOfTime =>
    match ends.sink with
    | some sink =>
      let compiled := p.compile options sink ends.bag s
      ⟨[], compiled.1, compiled.2.1, compiled.2.2⟩
    | none => ⟨[], .unable (utf8 "AOT backend requires an execution sink."), ends.bag, s⟩

end Linewise
