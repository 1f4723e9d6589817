import Linewise.CommandLine
import Linewise.Settings.Layers
/-!
The settings of one run of the tool: the configuration and the environment, with the options of the
command line over them.
-/
namespace Linewise

/-- What a run works with once everything is decided. -/
structure RunSettings where
  language : Language
  context : UInt32
  newline : Newline
  compile : CompileOptions
  deriving DecidableEq

namespace RunSettings

/-- The language of a configured word; any word but `ko` and `en` leaves it to the locale. -/
def resolveLanguage (env : Environment) (word : Bytes) : Language :=
  if word = utf8 "ko" then .korean
  else if word = utf8 "en" then .english
  else
    match ["LC_ALL", "LC_MESSAGES", "LANG"].findSome? fun name => env.get? (utf8 name) with
    | some locale => if locale.take 2 = utf8 "ko" then .korean else .english
    | none => .english

def artifactOf (word : Bytes) : Artifact :=
  if word = utf8 "llvm-ir" then .assembly
  else if word = utf8 "object" then .object
  else .listing

/-- Whether the mode folds emits: always when compiling optimized, and in memory if configured. -/
def optimizes (mode : Mode) (configured : Bool) : Bool :=
  match mode with
  | .compileOptimized => true
  | .jit => configured
  | .usage | .version | .interpret | .compile | .run => false

/-- The options of a command line over the effective settings. -/
def of (o : Options) (s : Settings.Effective) (env : Environment) : RunSettings :=
  { language := o.language.getD (resolveLanguage env s.language)
    context := o.context.getD (UInt32.ofInt s.context)
    newline := o.newline.getD ((Newline.ofName? s.newline).getD .universal)
    compile :=
      { optimize := optimizes o.mode s.optimize
        warnDeadEmits := o.warnDeadEmits.getD s.warnDeadEmits
        artifact := o.artifact.getD (artifactOf s.artifact)
        optLevel := o.optLevel.getD (UInt8.ofInt s.optLevel)
        target := o.target.getD s.target
        cpu := o.cpu.getD s.cpu } }

/-- The directory that the project is looked for from, unless it is the current one. -/
def anchor? (o : Options) : Option Bytes :=
  let directory := Path.parent o.input
  if directory.isEmpty then none else some directory

/-- What a verbose run says about its configuration. -/
def describe (l : Settings.Layers) : List Bytes :=
  [utf8 "global config: " ++ l.sources.global] ++
    (if l.sources.project.isEmpty then [] else [utf8 "project config: " ++ l.sources.project]) ++
    l.effective.map fun e => utf8 "config " ++ e.1 ++ utf8 " = " ++ e.2.render

/-- The settings of a run, with what is written about them. Without a configuration the defaults
hold, and neither files nor variables of the tool are looked at. -/
def load (d : Disk) (env : Environment) (o : Options) : RunSettings × Bytes :=
  if o.noConfig then (of o {} env, [])
  else
    let layers := Settings.Layers.load d env (anchor? o) o.config
    let effective := layers.settings env
    let notes := if o.verbose then describe layers else []
    (of o effective.1 env,
      (layers.warnings ++ effective.2).flatMap (fun w => utf8 "warning: config: " ++ w ++ utf8 "\n") ++
        notes.flatMap fun n => utf8 "info: " ++ n ++ utf8 "\n")

end RunSettings
end Linewise
