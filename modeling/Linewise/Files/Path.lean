import Linewise.Bytes
/-!
Path texts. A path is names between slashes, relative unless it starts with one. These operations
look at the text only: they ask no file system, resolve no dots and keep repeated slashes.
-/
namespace Linewise.Path

def isAbsolute (p : Bytes) : Bool := p.head? == some Byte.slash

def endsWithSlash (p : Bytes) : Bool := p.getLast? == some Byte.slash

/-- Whether a path has any name, rather than being empty or a row of slashes. -/
def hasNames (p : Bytes) : Bool := p.any (· != Byte.slash)

/-- The nonempty names of a path, outermost first. -/
def names (p : Bytes) : List Bytes := (p.splitOn Byte.slash).filter fun n => !n.isEmpty

/-- The text after the last slash; empty if the path ends with it. -/
def lastName (p : Bytes) : Bytes := (p.reverse.takeWhile (· != Byte.slash)).reverse

/-- The path without the slashes at its end. -/
def dropSlashes (p : Bytes) : Bytes := (p.reverse.dropWhile (· == Byte.slash)).reverse

/-- The path one level up: without its last name and the slashes before that, or without the
slashes at the end if there are any. The root and the empty path are their own parents. -/
def parent (p : Bytes) : Bytes :=
  if !hasNames p then p
  else if endsWithSlash p then dropSlashes p
  else
    let above := (p.reverse.dropWhile (· != Byte.slash)).reverse
    if hasNames above then dropSlashes above else above.take 1

def hasParent (p : Bytes) : Bool := !(parent p).isEmpty

/-- The path `q` seen from `p`; an absolute `q` is the same from everywhere. -/
def join (p q : Bytes) : Bytes :=
  if isAbsolute q || p.isEmpty then q
  else if endsWithSlash p then p ++ q
  else p ++ [Byte.slash] ++ q

/-- The path and its parents up to the last that is not empty. -/
def ancestors (p : Bytes) : List Bytes :=
  if p.isEmpty then []
  else if (parent p).length < p.length then p :: ancestors (parent p)
  else [p]
termination_by p.length

/-- The names `.` and `..` stand for directories that are there already. -/
def isDots (name : Bytes) : Bool := name == utf8 "." || name == utf8 ".."

end Linewise.Path
