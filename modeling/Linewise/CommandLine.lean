import Linewise.Diagnostic.Message
import Linewise.Strategy
/-!
The command line. Options may stand anywhere among the two positional words, the mode and the input
path. The first faulty option ends the reading; what was read before it is kept.
-/
namespace Linewise

inductive Mode where
  | usage
  | version
  | interpret
  | compile
  | compileOptimized
  | jit
  | run
  deriving DecidableEq, Inhabited

namespace Mode

def name : Mode → Bytes
  | .usage => utf8 "usage"
  | .version => utf8 "version"
  | .interpret => utf8 "interpret"
  | .compile => utf8 "compile"
  | .compileOptimized => utf8 "compile-optimized"
  | .jit => utf8 "jit"
  | .run => utf8 "run"

/-- The modes that a word on the command line can name. -/
def ofWord? (w : Bytes) : Option Mode :=
  [interpret, compile, compileOptimized, jit, run].find? fun m => m.name = w

def compiles : Mode → Bool
  | .compile | .compileOptimized => true
  | .usage | .version | .interpret | .jit | .run => false

end Mode

inductive DumpKind where
  | none
  | statements
  | listing
  deriving DecidableEq, Inhabited

inductive OptionError where
  | missingValue (flag : Bytes)
  | badLanguage (value : Bytes)
  | badContext (value : Bytes)
  | badNewline (value : Bytes)
  | badArtifact (value : Bytes)
  | badDump (value : Bytes)
  | badLevel (word : Bytes)
  | unknownOption (word : Bytes)
  | missingMode
  | unknownMode (word : Bytes)
  | missingInput (mode : Mode)
  | unexpectedArgument (word : Bytes)
  | missingOutput (mode : Mode)
  deriving DecidableEq

def OptionError.message : OptionError → Bytes
  | .missingValue flag => flag ++ utf8 " requires a value"
  | .badLanguage value => utf8 "--lang expects en|ko, got " ++ value.quoted
  | .badContext value => utf8 "--context expects an integer, got " ++ value.quoted
  | .badNewline value => utf8 "--newline expects crlf|lf|universal, got " ++ value.quoted
  | .badArtifact value => utf8 "--emit expects qir|llvm-ir|object, got " ++ value.quoted
  | .badDump value => utf8 "--dump expects stmts|qir, got " ++ value.quoted
  | .badLevel word =>
    utf8 "unsupported optimization level " ++ word.quoted ++ utf8 " (expected -O0..-O3)"
  | .unknownOption word => utf8 "unknown option " ++ word.quoted
  | .missingMode => utf8 "missing mode (interpret|compile|compile-optimized|jit|run)"
  | .unknownMode word => utf8 "unknown mode " ++ word.quoted
  | .missingInput mode => mode.name ++ utf8 " requires an input path"
  | .unexpectedArgument word => utf8 "unexpected argument " ++ word.quoted
  | .missingOutput mode => mode.name ++ utf8 " requires -o <out>"

/-- The options of a command line. What is not given there is left to the configuration. -/
structure Options where
  mode : Mode := .usage
  input : Bytes := []
  output : Bytes := []
  language : Option Language := none
  context : Option UInt32 := none
  newline : Option Newline := none
  artifact : Option Artifact := none
  optLevel : Option UInt8 := none
  target : Option Bytes := none
  cpu : Option Bytes := none
  warnDeadEmits : Option Bool := none
  dump : DumpKind := .none
  verbose : Bool := false
  noConfig : Bool := false
  config : Option Bytes := none
  warnings : List Bytes := []
  error : Option OptionError := none
  deriving DecidableEq, Inhabited

/-- The options that take the next word as their value. -/
inductive ValueFlag where
  | output
  | language
  | context
  | newline
  | artifact
  | dump
  | target
  | cpu
  | config
  deriving DecidableEq

namespace ValueFlag

def word : ValueFlag → Bytes
  | .output => utf8 "-o"
  | .language => utf8 "--lang"
  | .context => utf8 "--context"
  | .newline => utf8 "--newline"
  | .artifact => utf8 "--emit"
  | .dump => utf8 "--dump"
  | .target => utf8 "--target"
  | .cpu => utf8 "--cpu"
  | .config => utf8 "--config"

def all : List ValueFlag :=
  [.output, .language, .context, .newline, .artifact, .dump, .target, .cpu, .config]

/-- Sets the option to a value, unless it cannot take it. -/
def apply (o : Options) (value : Bytes) : ValueFlag → Except OptionError Options
  | .output => .ok { o with output := value }
  | .language =>
    if value = utf8 "ko" then .ok { o with language := some .korean }
    else if value = utf8 "en" then .ok { o with language := some .english }
    else .error (.badLanguage value)
  | .context =>
    match Decimal.leading? 32 value with
    | none => .error (.badContext value)
    | some n =>
      if n < 0 then
        .ok { o with
          context := some 0
          warnings := o.warnings ++ [utf8 "--context must be >= 0, using 0"] }
      else .ok { o with context := some (UInt32.ofNat n.toNat) }
  | .newline =>
    match Newline.ofName? value with
    | some rule => .ok { o with newline := some rule }
    | none => .error (.badNewline value)
  | .artifact =>
    if value = utf8 "qir" then .ok { o with artifact := some .listing }
    else if value = utf8 "llvm-ir" then .ok { o with artifact := some .assembly }
    else if value = utf8 "object" ∨ value = utf8 "obj" then
      .ok { o with artifact := some .object }
    else .error (.badArtifact value)
  | .dump =>
    if value = utf8 "stmts" then .ok { o with dump := .statements }
    else if value = utf8 "qir" then .ok { o with dump := .listing }
    else .error (.badDump value)
  | .target => .ok { o with target := some value }
  | .cpu => .ok { o with cpu := some value }
  | .config => .ok { o with config := some value }

end ValueFlag

/-- The options that stand alone. -/
inductive Switch where
  | noConfig
  | warnDeadEmits (on : Bool)
  | verbose
  | level (n : UInt8)
  deriving DecidableEq

def Switch.apply (o : Options) : Switch → Options
  | .noConfig => { o with noConfig := true }
  | .warnDeadEmits on => { o with warnDeadEmits := some on }
  | .verbose => { o with verbose := true }
  | .level n => { o with optLevel := some n }

def Switch.ofWord? (w : Bytes) : Option Switch :=
  if w = utf8 "--no-config" then some .noConfig
  else if w = utf8 "-Wdead-emit" then some (.warnDeadEmits true)
  else if w = utf8 "-Wno-dead-emit" then some (.warnDeadEmits false)
  else if w = utf8 "-v" ∨ w = utf8 "--verbose" then some .verbose
  else none

inductive Word where
  | valueFlag (flag : ValueFlag)
  | setting (switch : Switch)
  | positional
  deriving DecidableEq

namespace Word

/-- Reads a word that is no option by its spelling: `-O` and a digit set the level, any other word
that starts with a dash is unknown, save the dash alone. -/
def ofUnlisted (w : Bytes) : Except OptionError Word :=
  if w.length = 3 ∧ w.take 2 = utf8 "-O" then
    match w[2]? with
    | some d =>
      if 0x30 ≤ d ∧ d ≤ 0x33 then .ok (.setting (.level (d - 0x30))) else .error (.badLevel w)
    | none => .error (.badLevel w)
  else if 1 < w.length ∧ w.head? = some Byte.minus then .error (.unknownOption w)
  else .ok .positional

def ofBytes (w : Bytes) : Except OptionError Word :=
  match ValueFlag.all.find? fun f => f.word = w with
  | some f => .ok (.valueFlag f)
  | none =>
    match Switch.ofWord? w with
    | some s => .ok (.setting s)
    | none => ofUnlisted w

end Word

namespace Options

/-- Reads words into options and positional words, up to the first faulty option. `pending` is the
flag that the next word is the value of. -/
def readWords (o : Options) (positional : List Bytes) (pending : Option ValueFlag) :
    List Bytes → Options × List Bytes
  | [] => ({ o with error := pending.map fun flag => .missingValue flag.word }, positional)
  | w :: rest =>
    match pending with
    | some flag =>
      match flag.apply o w with
      | .error e => ({ o with error := some e }, positional)
      | .ok o => o.readWords positional none rest
    | none =>
      match Word.ofBytes w with
      | .error e => ({ o with error := some e }, positional)
      | .ok .positional => o.readWords (positional ++ [w]) none rest
      | .ok (.valueFlag flag) => o.readWords positional (some flag) rest
      | .ok (.setting s) => (s.apply o).readWords positional none rest

/-- Checks the output option against the mode; options that the mode ignores are warned about. -/
def checkMode (o : Options) : Options :=
  let ignored (flag : String) : Bytes :=
    utf8 flag ++ utf8 " is ignored in " ++ o.mode.name ++ utf8 " mode"
  if o.mode.compiles then
    if o.output.isEmpty then { o with error := some (.missingOutput o.mode) } else o
  else
    { o with
      output := []
      warnings :=
        o.warnings ++ (if o.output.isEmpty then [] else [ignored "-o"]) ++
          (if o.artifact.isSome then [ignored "--emit"] else []) }

/-- Takes the mode and the input path from the positional words. -/
def takePositional (o : Options) : List Bytes → Options
  | [] => { o with error := some .missingMode }
  | w :: rest =>
    match Mode.ofWord? w with
    | none => { o with error := some (.unknownMode w) }
    | some mode =>
      let o := { o with mode := mode }
      match rest with
      | [] => { o with error := some (.missingInput mode) }
      | [input] => { o with input := input }.checkMode
      | _ :: extra :: _ => { o with error := some (.unexpectedArgument extra) }

def overriding? (w : Bytes) : Option Mode :=
  if w = utf8 "--version" then some .version
  else if w = utf8 "-h" ∨ w = utf8 "--help" then some .usage
  else none

/-- Reads a command line. A request for the version or for help is met whatever else is said. -/
def read (args : List Bytes) : Options :=
  match args with
  | [] => {}
  | _ :: _ =>
    match args.findSome? overriding? with
    | some mode => { mode := mode }
    | none =>
      let words := Options.readWords {} [] none args
      if words.1.error.isSome then words.1 else words.1.takePositional words.2

end Options
end Linewise
