import Linewise.Tool
/-!
The command line of the tool. What a run may look at is read from the file system into a tree, the
run is worked out on it, and what the run changed in the tree is carried out.
-/
namespace Linewise.CommandLine

/-- The paths that a run with these words may look at. -/
def consulted (d : Disk) (env : Environment) (args : List Bytes) : List Bytes :=
  let o := Options.read args
  let anchor := (RunSettings.anchor? o).getD d.currentPath
  let markers := (Path.ancestors anchor ++ Path.ancestors (Path.parent anchor)).flatMap fun p =>
    [Path.join p (utf8 ".git"), Path.join (Path.join p (utf8 ".quill")) (utf8 "config.toml")]
  [o.input, o.output, d.currentPath, anchor, Settings.globalPath d env] ++ o.config.toList ++ markers

def textOf? (path : Bytes) : Option String := String.fromUTF8? ⟨path.toArray⟩

/-- What is at a place; below `/dev` there are devices. -/
def probe (place : Place) : IO (Option Node) := do
  match textOf? (Disk.pathOf place) with
  | none => return none
  | some path =>
    try
      let content ← IO.FS.readBinFile path
      return some (if place.head? == some (utf8 "dev") then .device else .file content.toList)
    catch e =>
      match e with
      | .inappropriateType .. => return some .directory
      | _ => return none

/-- Adds what is found on the way along some names to a tree. -/
def survey (t : FileTree) (place : Place) : List Bytes → IO FileTree
  | [] => return t
  | name :: rest => do
    if name = utf8 "." then survey t place rest
    else if name = utf8 ".." then survey t place.dropLast rest
    else
      let here := place ++ [name]
      match t.find? here with
      | some .directory => survey t here rest
      | some _ => return t
      | none =>
        match ← probe here with
        | none => return t
        | some .directory => survey (t.put here .directory) here rest
        | some node => return t.put here node

/-- Carries out what a run changed at one place. -/
def carryOut (old : FileTree) (tag : Bytes) (entry : Place × Node) : IO Unit := do
  if old.find? entry.1 = some entry.2 then return
  let path := Disk.pathOf entry.1
  match textOf? path, textOf? (temporaryPath tag path), entry.2 with
  | some target, _, .directory => IO.FS.createDirAll target
  | some target, some temporary, .file content =>
    IO.FS.writeBinFile temporary ⟨content.toArray⟩
    IO.FS.rename temporary target
  | _, _, _ => return

def environment : IO Environment := do
  let names := ["QUILL_DIAG_LANG", "QUILL_DIAG_CONTEXT", "QUILL_NEWLINE", "XDG_CONFIG_HOME",
    "HOME", "LC_ALL", "LC_MESSAGES", "LANG"]
  let values ← names.mapM fun name => do
    return (utf8 name, ((← IO.getEnv name).map utf8).getD [])
  return values

/-- Runs the tool on the file system. -/
def runOn (args : List Bytes) : IO UInt32 := do
  let env ← environment
  let current := Path.names (utf8 (toString (← IO.currentDir)))
  let tag := Decimal.ofNat (← IO.monoNanosNow) ++ utf8 ".0"
  let start : Disk := { current := current }
  let tree ← (consulted start env args).foldlM
    (fun t path => survey t (start.origin path) (Path.names path)) start.tree
  let disk : Disk := { start with tree := tree }
  let outcome := Tool.run ⟨disk, env, tag⟩ args
  (← IO.getStdout).write ⟨outcome.stdout.toArray⟩
  (← IO.getStderr).write ⟨outcome.stderr.toArray⟩
  let entries := outcome.disk.tree.entries.reverse
  entries.forM (carryOut tree tag)
  return outcome.exit.toUInt32

end Linewise.CommandLine

def main (args : List String) : IO UInt32 :=
  Linewise.CommandLine.runOn (args.map Linewise.utf8)
