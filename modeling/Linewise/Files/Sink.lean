import Linewise.Files.Tree
import Linewise.Sink
/-!
The file sink. An artifact is written to a temporary file beside its target and then moved over it,
so the target holds either what it held before or the whole artifact.
-/
namespace Linewise

/-- The temporary file of a target; the tag tells it from those of other runs. -/
def temporaryPath (tag target : Bytes) : Bytes := target ++ utf8 ".tmp." ++ tag

/-- Writes an artifact to a file, by way of the temporary file with the tag. -/
def Disk.persist (tag target bytes : Bytes) (d : Disk) : Reply × Disk :=
  let refuse (reason : Bytes) : Reply := .refused (some ⟨target, reason⟩)
  if target.isEmpty then (refuse (utf8 "empty output path"), d)
  else if d.isThere target && !d.isFile target then
    (refuse (utf8 "output path exists and is not a regular file"), d)
  else
    let directory := Path.parent target
    match (if directory.isEmpty then (d, none) else d.makeDirectories directory) with
    | (d, some _) => (refuse (utf8 "failed to create output directory: " ++ directory), d)
    | (d, none) =>
      let temporary := temporaryPath tag target
      match d.write temporary bytes with
      | .error _ =>
        (refuse (utf8 "failed to open temporary file for write: " ++ temporary), d)
      | .ok written =>
        match written.move temporary target with
        | .ok moved => (.kept, moved)
        | .error e =>
          (refuse (utf8 "failed to move temporary file to final path: " ++ e.message),
            written.remove temporary)

def Disk.sink (tag target : Bytes) : Sink Disk where
  target := target
  persist := Disk.persist tag target

/-- Reads a whole file, with the message of a file that cannot be opened. -/
def Disk.openFile (d : Disk) (path : Bytes) : Except Bytes Bytes :=
  match d.read path with
  | .ok content => .ok content
  | .error e => .error (utf8 "cannot open file " ++ path.quoted ++ utf8 ": " ++ e.message)

end Linewise
