import Linewise.Files.Path
/-!
A tree of directories and files, and the operations on it that the tools need. Paths are resolved
name by name as the system does: every name but the last must be a directory, `..` leads to the
directory above, and names and paths have a greatest length. There are no links and no permissions.
-/
namespace Linewise

inductive Node where
  | directory
  | file (content : Bytes)
  /-- Neither a directory nor a regular file; reading it gives nothing. -/
  | device
  deriving DecidableEq

/-- The names from the root down to an entry. -/
abbrev Place := List Bytes

/-- The entries below the root. Each place has at most one entry that counts, the first. -/
structure FileTree where
  entries : List (Place × Node) := []
  deriving DecidableEq, Inhabited

namespace FileTree

/-- The entry at a place; the root is always a directory. -/
def find? (t : FileTree) (place : Place) : Option Node :=
  if place.isEmpty then some .directory
  else (t.entries.find? fun e => e.1 = place).map (·.2)

def erase (t : FileTree) (place : Place) : FileTree := ⟨t.entries.filter fun e => e.1 != place⟩

/-- Puts an entry at a place, instead of any that is there. -/
def put (t : FileTree) (place : Place) (node : Node) : FileTree :=
  ⟨(place, node) :: (t.erase place).entries⟩

theorem find?_erase (t : FileTree) {place : Place} (other : Place) (h : place ≠ []) :
    (t.erase place).find? other = if other = place then none else t.find? other := by
  unfold find? erase
  grind

theorem find?_put (t : FileTree) {place : Place} (other : Place) (node : Node) (h : place ≠ []) :
    (t.put place node).find? other = if other = place then some node else t.find? other := by
  have := find?_erase t other h
  unfold find? put at *
  grind

end FileTree

inductive FileError where
  | notFound
  | notDirectory
  | nameTooLong
  | isDirectory
  | alreadyThere
  | busy
  deriving DecidableEq

def FileError.message : FileError → Bytes
  | .notFound => utf8 "No such file or directory"
  | .notDirectory => utf8 "Not a directory"
  | .nameTooLong => utf8 "File name too long"
  | .isDirectory => utf8 "Is a directory"
  | .alreadyThere => utf8 "File exists"
  | .busy => utf8 "Device or resource busy"

/-- A file tree with the directory that relative paths start from. -/
structure Disk where
  tree : FileTree := {}
  current : Place := []
  deriving DecidableEq, Inhabited

namespace Disk

/-- The bytes that the system sees of a path: those before the first NUL. -/
def systemPath (path : Bytes) : Bytes := path.takeWhile (· != Byte.nul)

def longestPath : Nat := 4095

def longestName : Nat := 255

def pathOf (place : Place) : Bytes :=
  if place.isEmpty then [Byte.slash] else place.flatMap (Byte.slash :: ·)

def currentPath (d : Disk) : Bytes := pathOf d.current

/-- The place that names lead to from a place. -/
def walk (t : FileTree) (place : Place) : List Bytes → Except FileError Place
  | [] => .ok place
  | name :: rest =>
    match t.find? place with
    | some .directory =>
      if name = utf8 "." then walk t place rest
      else if name = utf8 ".." then walk t place.dropLast rest
      else if longestName < name.length then .error .nameTooLong
      else if (t.find? (place ++ [name])).isNone then .error .notFound
      else walk t (place ++ [name]) rest
    | some _ => .error .notDirectory
    | none => .error .notFound

theorem walk_append (t : FileTree) (place : Place) (above below : List Bytes) :
    walk t place (above ++ below) = (walk t place above).bind fun p => walk t p below := by
  induction above generalizing place with
  | nil => rfl
  | cons name rest ih =>
    simp only [List.cons_append, walk]
    repeat' split
    all_goals simp_all [Except.bind]

/-- Where the names of a path start. -/
def origin (d : Disk) (path : Bytes) : Place := if Path.isAbsolute path then [] else d.current

/-- The names to follow; a slash at the end asks for a directory, as a dot does. -/
def steps (path : Bytes) : List Bytes :=
  Path.names path ++ if Path.endsWithSlash path then [utf8 "."] else []

/-- The place of something that is there, whatever the length of the path. -/
def resolve (d : Disk) (path : Bytes) : Except FileError Place :=
  let path := systemPath path
  if path.isEmpty then .error .notFound else walk d.tree (d.origin path) (steps path)

/-- The place of something that is there. -/
def locate (d : Disk) (path : Bytes) : Except FileError Place :=
  if longestPath < (systemPath path).length then .error .nameTooLong else d.resolve path

def look (d : Disk) (path : Bytes) : Except FileError Node :=
  match d.locate path with
  | .error e => .error e
  | .ok place =>
    match d.tree.find? place with
    | some node => .ok node
    | none => .error .notFound

/-- Whether anything can be found at a path. -/
def isThere (d : Disk) (path : Bytes) : Bool :=
  match d.look path with
  | .ok _ => true
  | .error _ => false

def isDirectory (d : Disk) (path : Bytes) : Bool :=
  match d.look path with
  | .ok .directory => true
  | _ => false

def isFile (d : Disk) (path : Bytes) : Bool :=
  match d.look path with
  | .ok (.file _) => true
  | _ => false

def read (d : Disk) (path : Bytes) : Except FileError Bytes :=
  match d.look path with
  | .error e => .error e
  | .ok (.file content) => .ok content
  | .ok .device => .ok []
  | .ok .directory => .error .isDirectory

/-- The absolute path of something that is there, without dots and repeated slashes; the path itself
if nothing is there. -/
def normalize (d : Disk) (path : Bytes) : Bytes :=
  match d.resolve path with
  | .ok place => pathOf place
  | .error _ => path

/-- The directory and the name in it that a path leads to, whether or not that name is taken. -/
def slot (d : Disk) (path : Bytes) : Except FileError (Place × Bytes) :=
  let path := systemPath path
  if path.isEmpty then .error .notFound
  else if longestPath < path.length then .error .nameTooLong
  else
    let names := Path.names path
    match walk d.tree (d.origin path) (names.dropLast ++ [utf8 "."]) with
    | .error e => .error e
    | .ok place => .ok (place, names.getLastD (utf8 "."))

/-- Makes a directory in a directory that is there. -/
def makeDirectory (d : Disk) (path : Bytes) : Except FileError Disk :=
  match d.slot path with
  | .error e => .error e
  | .ok (place, name) =>
    if Path.isDots name then .error .alreadyThere
    else if longestName < name.length then .error .nameTooLong
    else if (d.tree.find? (place ++ [name])).isSome then .error .alreadyThere
    else .ok { d with tree := d.tree.put (place ++ [name]) .directory }

/-- Writes a file, which may be there already. -/
def write (d : Disk) (path content : Bytes) : Except FileError Disk :=
  match d.slot path with
  | .error e => .error e
  | .ok (place, name) =>
    if Path.isDots name || Path.endsWithSlash (systemPath path) then .error .isDirectory
    else if longestName < name.length then .error .nameTooLong
    else
      match d.tree.find? (place ++ [name]) with
      | some .directory => .error .isDirectory
      | some .device => .ok d
      | _ => .ok { d with tree := d.tree.put (place ++ [name]) (.file content) }

/-- Removes a file, if it is there. -/
def remove (d : Disk) (path : Bytes) : Disk :=
  match d.slot path with
  | .error _ => d
  | .ok (place, name) => { d with tree := d.tree.erase (place ++ [name]) }

/-- Moves a file over anything but a directory. -/
def move (d : Disk) (source target : Bytes) : Except FileError Disk :=
  match d.slot source, d.slot target with
  | .error e, _ | _, .error e => .error e
  | .ok (fromPlace, fromName), .ok (toPlace, toName) =>
    if Path.isDots toName then .error .busy
    else if longestName < toName.length then .error .nameTooLong
    else
      match d.tree.find? (fromPlace ++ [fromName]) with
      | none => .error .notFound
      | some node =>
        if Path.endsWithSlash (systemPath target) then .error .notDirectory
        else if d.tree.find? (toPlace ++ [toName]) = some .directory then .error .isDirectory
        else
          .ok { d with
            tree := (d.tree.erase (fromPlace ++ [fromName])).put (toPlace ++ [toName]) node }

/-- The directories among a path and its parents that have to be made, outermost first. -/
def missing (d : Disk) : List Bytes → Except FileError (List Bytes)
  | [] => .ok []
  | path :: above =>
    match d.look path with
    | .ok .directory => .ok []
    | .ok _ => .error .notDirectory
    | .error .notFound | .error .notDirectory =>
      (d.missing above).map (· ++ if Path.isDots (Path.lastName path) then [] else [path])
    | .error e => .error e

/-- Makes directories in turn, passing over those that are there, until one cannot be made. -/
def makeEach (d : Disk) : List Bytes → Disk × Option FileError
  | [] => (d, none)
  | path :: rest =>
    match d.makeDirectory path with
    | .ok d => d.makeEach rest
    | .error e =>
      if e = .alreadyThere && d.isDirectory path then d.makeEach rest else (d, some e)

/-- The greatest number of directories made at a time. -/
def mostMissing : Nat := 1000

/-- Makes a directory and the missing ones above it. -/
def makeDirectories (d : Disk) (path : Bytes) : Disk × Option FileError :=
  match d.missing (Path.ancestors path) with
  | .error e => (d, some e)
  | .ok paths =>
    if mostMissing < paths.length then (d, some .nameTooLong) else d.makeEach paths

end Disk
end Linewise
