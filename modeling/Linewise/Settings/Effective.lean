import Linewise.Environment
import Linewise.Settings.Table
/-!
Effective settings: the defaults, under the values of the configuration, under the environment. A
value of the wrong kind is passed over, a word that is no choice falls back, and a number that is
out of range is brought into it, so whatever the configuration holds the result can be used.
-/
namespace Linewise.Settings

/-! The keys that mean something. -/
namespace Key

def language : Bytes := utf8 "diag.lang"
def context : Bytes := utf8 "diag.context"
def newline : Bytes := utf8 "source.newline"
def optimize : Bytes := utf8 "jit.optimize"
def artifact : Bytes := utf8 "compile.emit"
def warnDeadEmits : Bytes := utf8 "warn.dead_emit"
def target : Bytes := utf8 "llvm.target_triple"
def cpu : Bytes := utf8 "llvm.cpu"
def optLevel : Bytes := utf8 "llvm.opt_level"

def all : List Bytes :=
  [language, context, newline, optimize, artifact, warnDeadEmits, target, cpu, optLevel]

def isKnown (key : Bytes) : Bool := all.contains key

end Key

/-! The environment variables that override a setting. -/
namespace Variable

def language : Bytes := utf8 "QUILL_DIAG_LANG"
def context : Bytes := utf8 "QUILL_DIAG_CONTEXT"
def newline : Bytes := utf8 "QUILL_NEWLINE"

end Variable

structure Effective where
  language : Bytes := utf8 "auto"
  context : Int := 2
  newline : Bytes := utf8 "universal"
  optimize : Bool := false
  artifact : Bytes := utf8 "qir"
  warnDeadEmits : Bool := false
  target : Bytes := []
  cpu : Bytes := []
  optLevel : Int := 0
  deriving DecidableEq, Inhabited

/-- The kinds of values that a key may want, named as in warnings. -/
inductive ValueKind where
  | text
  | integer
  | boolean

def ValueKind.name : ValueKind → Bytes
  | .text => utf8 "string"
  | .integer => utf8 "int"
  | .boolean => utf8 "bool"

/-- A setting read with the warnings that this gave rise to. -/
abbrev Warned (α : Type) := α × List Bytes

/-- The value of a key that wants a kind, or `fallback`; warns if the value is of another kind. -/
def fetch {α : Type} (t : Table) (kind : ValueKind) (select : Value → Option α) (key : Bytes)
    (fallback : α) : Warned α :=
  match t.get? key with
  | none => (fallback, [])
  | some v =>
    match select v with
    | some a => (a, [])
    | none =>
      (fallback, [utf8 "config key " ++ key.quoted ++ utf8 " has wrong type (expected " ++
        kind.name ++ utf8 ")"])

def fetchText (t : Table) (key fallback : Bytes) : Warned Bytes :=
  fetch t .text (fun | .text s => some s | _ => none) key fallback

def fetchInteger (t : Table) (key : Bytes) (fallback : Int) : Warned Int :=
  fetch t .integer (fun | .integer n => some n | _ => none) key fallback

def fetchBoolean (t : Table) (key : Bytes) (fallback : Bool) : Warned Bool :=
  fetch t .boolean (fun | .boolean b => some b | _ => none) key fallback

/-- The integer that a variable starts with, or `layered`; warns if there is none. -/
def overrideInteger (env : Environment) (name : Bytes) (layered : Int) : Warned Int :=
  match env.get? name with
  | none => (layered, [])
  | some v =>
    match Decimal.leading? 64 v with
    | some n => (n, [])
    | none => (layered, [name ++ utf8 " is not an integer, ignored"])

/-- The word in lower case if it is one of the choices, and the fallback with a warning if not. -/
def choose (choices : List String) (fallback : String) (key word : Bytes) : Warned Bytes :=
  let word := word.toLower
  if (choices.map utf8).contains word then (word, [])
  else
    (utf8 fallback, [utf8 "config key " ++ key.quoted ++ utf8 " has unsupported value " ++
      word.quoted ++ utf8 ", using " ++ (utf8 fallback).quoted])

/-- A negative context means the default. -/
def normalizeContext (n : Int) : Int := if n < 0 then 2 else n

/-- Levels go from zero to three. -/
def clampLevel (n : Int) : Int := max 0 (min n 3)

/-- The effective settings, and the warnings in the order in which they arise: first about kinds of
values, then about the environment, then about words that are no choice. -/
def Effective.of (t : Table) (env : Environment) : Warned Effective :=
  let base : Effective := {}
  let language := fetchText t Key.language base.language
  let context := fetchInteger t Key.context base.context
  let newline := fetchText t Key.newline base.newline
  let optimize := fetchBoolean t Key.optimize base.optimize
  let artifact := fetchText t Key.artifact base.artifact
  let warnDeadEmits := fetchBoolean t Key.warnDeadEmits base.warnDeadEmits
  let target := fetchText t Key.target base.target
  let cpu := fetchText t Key.cpu base.cpu
  let optLevel := fetchInteger t Key.optLevel base.optLevel
  let chosenContext := overrideInteger env Variable.context context.1
  let chosenLanguage := choose ["en", "ko", "auto"] "auto" Key.language
    ((env.get? Variable.language).getD language.1)
  let chosenNewline := choose ["crlf", "lf", "universal"] "universal" Key.newline
    ((env.get? Variable.newline).getD newline.1)
  let chosenArtifact := choose ["qir", "llvm-ir", "object"] "qir" Key.artifact artifact.1
  ({ language := chosenLanguage.1
     context := normalizeContext chosenContext.1
     newline := chosenNewline.1
     optimize := optimize.1
     artifact := chosenArtifact.1
     warnDeadEmits := warnDeadEmits.1
     target := target.1
     cpu := cpu.1
     optLevel := clampLevel optLevel.1 },
    language.2 ++ context.2 ++ newline.2 ++ optimize.2 ++ artifact.2 ++ warnDeadEmits.2 ++
      target.2 ++ cpu.2 ++ optLevel.2 ++ chosenContext.2 ++ chosenLanguage.2 ++
      chosenNewline.2 ++ chosenArtifact.2)

/-- The effective settings, with their warnings behind those of a list; without a list no warning is
kept. -/
def Effective.gather (t : Table) (env : Environment) (warnings : Option (List Bytes)) :
    Effective × Option (List Bytes) :=
  ((Effective.of t env).1, warnings.map (· ++ (Effective.of t env).2))

end Linewise.Settings
