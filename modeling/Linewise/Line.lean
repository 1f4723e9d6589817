import Linewise.Bytes
/-!
Logical lines. A source is cut at the terminators of one newline rule; a terminator closes its line
and opens none, so an empty source has no lines and a final terminator adds no empty one.
-/
namespace Linewise

inductive Newline where
  | crlf
  | lf
  | universal
  deriving DecidableEq, Inhabited

namespace Newline

def name : Newline → Bytes
  | .crlf => utf8 "crlf"
  | .lf => utf8 "lf"
  | .universal => utf8 "universal"

/-- Reads a name; `auto` means universal. -/
def ofName? (s : Bytes) : Option Newline :=
  if s = utf8 "crlf" then some .crlf
  else if s = utf8 "lf" then some .lf
  else if s = utf8 "universal" ∨ s = utf8 "auto" then some .universal
  else none

/-- The terminator that `b :: rest` starts with, and what follows it. -/
def terminator? (rule : Newline) (b : UInt8) (rest : Bytes) : Option (Bytes × Bytes) :=
  if rule ≠ .lf ∧ b = Byte.cr ∧ rest.head? = some Byte.lf then
    some ([Byte.cr, Byte.lf], rest.tail)
  else if (rule ≠ .crlf ∧ b = Byte.lf) ∨ (rule = .universal ∧ b = Byte.cr) then some ([b], rest)
  else none

theorem terminator?_append {rule : Newline} {b : UInt8} {rest t after : Bytes}
    (h : rule.terminator? b rest = some (t, after)) : t ++ after = b :: rest := by
  unfold terminator? at h
  split at h
  · cases rest with
    | nil => simp_all
    | cons c rest => simp_all [eq_comm]
  · split at h
    · cases h; rfl
    · cases h

theorem terminator?_length {rule : Newline} {b : UInt8} {rest t after : Bytes}
    (h : rule.terminator? b rest = some (t, after)) : after.length ≤ rest.length := by
  unfold terminator? at h
  split at h
  · cases h; simp
  · split at h
    · cases h; exact Nat.le_refl _
    · cases h

end Newline

/-- A piece of a source: a line's text and the terminator after it, if any. -/
structure Piece where
  text : Bytes
  terminator : Bytes
  deriving DecidableEq

def Piece.bytes (p : Piece) : Bytes := p.text ++ p.terminator

/-- The first piece and the bytes after it. `seen` holds the text so far in reverse. -/
def Newline.firstPiece (rule : Newline) (seen : Bytes) : Bytes → Piece × Bytes
  | [] => (⟨seen.reverse, []⟩, [])
  | b :: rest =>
    match rule.terminator? b rest with
    | some (t, after) => (⟨seen.reverse, t⟩, after)
    | none => rule.firstPiece (b :: seen) rest

theorem Newline.firstPiece_length (rule : Newline) (seen s : Bytes) :
    (rule.firstPiece seen s).2.length ≤ s.length - 1 := by
  induction s generalizing seen with
  | nil => exact Nat.le_refl 0
  | cons b rest ih =>
    unfold firstPiece
    split
    · exact terminator?_length ‹_›
    · exact Nat.le_trans (ih (b :: seen)) (Nat.sub_le _ _)

/-- Cuts the source after every terminator; the last piece may lack one, but is not empty. -/
def Newline.pieces (rule : Newline) (source : Bytes) : List Piece :=
  if source.isEmpty then []
  else
    let first := rule.firstPiece [] source
    first.1 :: rule.pieces first.2
termination_by source.length
decreasing_by
  have := rule.firstPiece_length [] source
  cases source with
  | nil => simp_all
  | cons b rest => simp only [List.length_cons] at *; omega

theorem Newline.pieces_nil (rule : Newline) : rule.pieces [] = [] := by
  rw [pieces]; rfl

theorem Newline.pieces_of_ne_nil (rule : Newline) {s : Bytes} (h : s ≠ []) :
    rule.pieces s = (rule.firstPiece [] s).1 :: rule.pieces (rule.firstPiece [] s).2 := by
  rw [pieces, if_neg (by simpa using h)]

/-- A logical line: its text without the terminator, its number from one, and the offset at which
it starts. -/
structure Line where
  text : Bytes
  number : UInt32
  start : UInt32
  bareLf : Bool
  deriving DecidableEq

/-- Numbers pieces from `index` lines and `offset` bytes into the source. -/
def Line.enumerate (rule : Newline) (index offset : Nat) : List Piece → List Line
  | [] => []
  | p :: rest =>
    { text := p.text
      number := UInt32.ofNat (index + 1)
      start := UInt32.ofNat offset
      bareLf := rule == .crlf && p.text.contains Byte.lf } ::
      Line.enumerate rule (index + 1) (offset + p.bytes.length) rest

/-- The logical lines of a source. A line feed inside a line is noted under the `crlf` rule. -/
def Newline.split (rule : Newline) (source : Bytes) : List Line :=
  Line.enumerate rule 0 0 (rule.pieces source)

end Linewise
