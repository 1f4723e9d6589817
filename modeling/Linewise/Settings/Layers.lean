import Linewise.Files.Tree
import Linewise.Settings.Document
import Linewise.Settings.Effective
/-!
The layers of the configuration: a global file, and over it the file of the project that the source
belongs to. The project is found by its markers in the directories above the source, as its path
spells them.
-/
namespace Linewise.Settings

/-- Whether a directory carries a project's marker. -/
def isProjectRoot (d : Disk) (directory : Bytes) : Bool :=
  d.isDirectory (Path.join directory (utf8 ".quill")) ||
    d.isThere (Path.join directory (utf8 ".git"))

/-- The nearest marked directory among a path and its parents, if the path is there. -/
def projectRoot? (d : Disk) (start : Bytes) : Option Bytes :=
  let start := if start.isEmpty then d.currentPath else start
  if d.isThere start then
    let directory := if d.isDirectory start then start else Path.parent start
    (Path.ancestors directory).find? (isProjectRoot d)
  else none

/-- The file of the global layer. -/
def globalPath (d : Disk) (env : Environment) : Bytes :=
  let home :=
    match env.get? (utf8 "XDG_CONFIG_HOME") with
    | some directory => directory
    | none => Path.join ((env.get? (utf8 "HOME")).getD d.currentPath) (utf8 ".config")
  Path.join (Path.join home (utf8 "quill")) (utf8 "config.toml")

/-- Where the layers come from; an empty path stands for no project file. -/
structure Sources where
  global : Bytes
  project : Bytes
  root : Option Bytes
  deriving DecidableEq

/-- The sources for a source directory, by default the current one. -/
def Sources.of (d : Disk) (env : Environment) (anchor : Option Bytes) : Sources :=
  let root := projectRoot? d (anchor.getD d.currentPath)
  { global := globalPath d env
    project :=
      match root with
      | some root => Path.join (Path.join root (utf8 ".quill")) (utf8 "config.toml")
      | none => []
    root := root }

/-- The values of one layer that have a known key, with its warnings. `layer` names it. -/
def readLayer (d : Disk) (layer path : Bytes) : Table × List Bytes :=
  let failed (reason : Bytes) : Bytes :=
    utf8 "failed to load " ++ layer ++ utf8 " config: " ++ reason
  if d.isThere path then
    match d.look path with
    | .ok (.file content) =>
      let read := Document.readNamed path content []
      let unknown := read.1.values.filter fun e => !Key.isKnown e.1
      (read.1.values.filter fun e => Key.isKnown e.1,
        read.2 ++ ((read.1.errorMessage? path).map failed).toList ++
          unknown.map fun e =>
            path ++ utf8 ": unknown key " ++ e.1.quoted ++ utf8 " ignored")
    | _ => ([], [failed (utf8 "not a regular file: " ++ path)])
  else ([], [])

/-- The loaded configuration. -/
structure Layers where
  sources : Sources
  global : Table
  project : Table
  effective : Table
  warnings : List Bytes
  deriving DecidableEq

/-- Loads both layers. An explicit path is read in place of the project's file. -/
def Layers.load (d : Disk) (env : Environment) (anchor explicitPath : Option Bytes) : Layers :=
  let sources := Sources.of d env anchor
  let sources := { sources with project := explicitPath.getD sources.project }
  let absent :=
    match explicitPath with
    | some path => if d.isThere path then [] else [utf8 "config file not found: " ++ path]
    | none => []
  let global := readLayer d (utf8 "global") sources.global
  let project := readLayer d (utf8 "project") sources.project
  { sources := sources
    global := global.1
    project := project.1
    effective := project.1.overlay global.1
    warnings := absent ++ global.2 ++ project.2 }

/-- The settings that the layers and the environment amount to. -/
def Layers.settings (l : Layers) (env : Environment) : Warned Effective :=
  Effective.of l.effective env

end Linewise.Settings
