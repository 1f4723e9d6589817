/-!
Text is a list of bytes. A source, an artifact or a message may hold any bytes at all, and only the
counting of columns looks at characters.
-/
namespace Linewise

/-- A text of arbitrary bytes. -/
abbrev Bytes := List UInt8

def utf8 (s : String) : Bytes := s.toList.flatMap String.utf8EncodeChar

-- The kernel decodes the bytes of a string slowly, so fixed texts are checked on their characters.
theorem utf8_ofList (cs : List Char) :
    utf8 (String.ofList cs) = cs.flatMap String.utf8EncodeChar := by
  rw [utf8, String.toList_ofList]

/-! Bytes with a meaning of their own somewhere in the formats. -/
namespace Byte

def nul : UInt8 := 0x00
def tab : UInt8 := 0x09
def lf : UInt8 := 0x0A
def cr : UInt8 := 0x0D
def space : UInt8 := 0x20
def quote : UInt8 := 0x22
def hash : UInt8 := 0x23
def plus : UInt8 := 0x2B
def minus : UInt8 := 0x2D
def dot : UInt8 := 0x2E
def slash : UInt8 := 0x2F
def semicolon : UInt8 := 0x3B
def equals : UInt8 := 0x3D
def openBracket : UInt8 := 0x5B
def backslash : UInt8 := 0x5C
def closeBracket : UInt8 := 0x5D
def underscore : UInt8 := 0x5F

/-- Spaces, tabs and carriage returns separate the words of a line. -/
def isBlank (b : UInt8) : Bool := b == space || b == tab || b == cr

def isDigit (b : UInt8) : Bool := 0x30 ≤ b && b ≤ 0x39

def isLower (b : UInt8) : Bool := 0x61 ≤ b && b ≤ 0x7A

/-- The value of a decimal digit; meaningless for other bytes. -/
def digitValue (b : UInt8) : Nat := b.toNat - 0x30

/-- The ASCII lower-case form; bytes other than `A` to `Z` stay. -/
def toLower (b : UInt8) : UInt8 := if 0x41 ≤ b && b ≤ 0x5A then b + 0x20 else b

def hexValue? (b : UInt8) : Option UInt8 :=
  if isDigit b then some (b - 0x30)
  else if 0x61 ≤ b && b ≤ 0x66 then some (b - 0x61 + 10)
  else if 0x41 ≤ b && b ≤ 0x46 then some (b - 0x41 + 10)
  else none

def lowerHex (b : UInt8) : Bytes :=
  let digit (n : UInt8) : UInt8 := if n < 10 then 0x30 + n else 0x61 + (n - 10)
  [digit (b >>> 4), digit (b &&& 0x0F)]

def upperHex (b : UInt8) : Bytes :=
  let digit (n : UInt8) : UInt8 := if n < 10 then 0x30 + n else 0x41 + (n - 10)
  [digit (b >>> 4), digit (b &&& 0x0F)]

end Byte

namespace Bytes

/-- The text without the blanks at both ends. -/
def trim (s : Bytes) : Bytes :=
  ((s.dropWhile Byte.isBlank).reverse.dropWhile Byte.isBlank).reverse

def toLower (s : Bytes) : Bytes := s.map Byte.toLower

/-- Replaces occurrences from left to right; `skip` bytes still belong to the last one found. -/
def replaceFrom (pattern replacement : Bytes) : Nat → Bytes → Bytes
  | _, [] => []
  | skip + 1, _ :: rest => replaceFrom pattern replacement skip rest
  | 0, b :: rest =>
    if pattern.isPrefixOf (b :: rest) then
      replacement ++ replaceFrom pattern replacement (pattern.length - 1) rest
    else b :: replaceFrom pattern replacement 0 rest

/-- Replaces every occurrence of a nonempty pattern; replaced text is not searched again. -/
def replaceAll (s pattern replacement : Bytes) : Bytes := replaceFrom pattern replacement 0 s

def quoted (s : Bytes) : Bytes := utf8 "'" ++ s ++ utf8 "'"

def fill (count : Nat) (b : UInt8) : Bytes := List.replicate count b

/-- Lines of text, each with a line feed after it. -/
def ofRows (rows : List String) : Bytes := rows.flatMap fun r => utf8 r ++ [Byte.lf]

/-- The text if the condition holds, and nothing otherwise. -/
def when (condition : Bool) (text : Bytes) : Bytes := if condition then text else []

end Bytes
end Linewise
