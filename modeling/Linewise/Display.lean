import Linewise.Bytes
/-!
Display columns. A text is read as UTF-8 with every malformed byte standing for itself, and each
character takes no, one or two columns of a terminal.
-/
namespace Linewise

/-- A character of a text: its code point, and how many bytes it takes. -/
structure Glyph where
  code : Nat
  size : Nat
  deriving DecidableEq

namespace Glyph

/-- The payload of a continuation byte. -/
def continuation? (s : Bytes) (index : Nat) : Option Nat :=
  match s[index]? with
  | some b => if b &&& 0xC0 = 0x80 then some (b &&& 0x3F).toNat else none
  | none => none

/-- A byte that starts no well-formed sequence. -/
def malformed : Glyph := ⟨0xFFFD, 1⟩

/-- The character at the start of `b :: rest`. Only the marker bits of each byte are looked at, so
an overlong form or a surrogate counts as what it spells. -/
def first (b : UInt8) (rest : Bytes) : Glyph :=
  if b < 0x80 then ⟨b.toNat, 1⟩
  else if b &&& 0xE0 = 0xC0 then
    match continuation? rest 0 with
    | some c₁ => ⟨(b &&& 0x1F).toNat * 0x40 + c₁, 2⟩
    | none => malformed
  else if b &&& 0xF0 = 0xE0 then
    match continuation? rest 0, continuation? rest 1 with
    | some c₁, some c₂ => ⟨(b &&& 0x0F).toNat * 0x1000 + c₁ * 0x40 + c₂, 3⟩
    | _, _ => malformed
  else if b &&& 0xF8 = 0xF0 then
    match continuation? rest 0, continuation? rest 1, continuation? rest 2 with
    | some c₁, some c₂, some c₃ =>
      ⟨(b &&& 0x07).toNat * 0x40000 + c₁ * 0x1000 + c₂ * 0x40 + c₃, 4⟩
    | _, _, _ => malformed
  else malformed

/-- The characters of a text after `skip` bytes that belong to the one before. -/
def readFrom : Nat → Bytes → List Glyph
  | _, [] => []
  | skip + 1, _ :: rest => readFrom skip rest
  | 0, b :: rest => first b rest :: readFrom ((first b rest).size - 1) rest

def read (s : Bytes) : List Glyph := readFrom 0 s

/-- Combining marks are drawn over the character before them. -/
def combining : List (Nat × Nat) :=
  [(0x0300, 0x036F), (0x1AB0, 0x1AFF), (0x1DC0, 0x1DFF), (0x20D0, 0x20FF), (0xFE20, 0xFE2F)]

/-- Hangul, the ideographs and full-width forms take two columns. -/
def wide : List (Nat × Nat) :=
  [(0x1100, 0x115F), (0x2E80, 0xA4CF), (0xAC00, 0xD7A3), (0xF900, 0xFAFF), (0xFE30, 0xFE6F),
    (0xFF00, 0xFF60), (0xFFE0, 0xFFE6)]

def within (ranges : List (Nat × Nat)) (code : Nat) : Bool :=
  ranges.any fun r => r.1 ≤ code && code ≤ r.2

/-- The columns of a code point; control characters take none. -/
def columns (code : Nat) : Nat :=
  if code < 0x20 || (0x7F ≤ code && code < 0xA0) then 0
  else if within combining code then 0
  else if within wide code then 2
  else 1

/-- The columns of the characters that start before `limit` bytes. -/
def columnsBefore (limit : Nat) : List Glyph → Nat
  | [] => 0
  | g :: rest => if limit = 0 then 0 else columns g.code + columnsBefore (limit - g.size) rest

end Glyph

/-- The columns of the characters of a text that start between two byte offsets. -/
def Bytes.columnsBetween (s : Bytes) (lo hi : Nat) : Nat :=
  Glyph.columnsBefore (hi - lo) (Glyph.read (s.drop lo))

end Linewise
