import Linewise.Line
import Linewise.Settings.Table
/-!
Settings files: one level of sections, and keys with a string, an integer or a boolean. Each line is
read on its own; assignments take effect in order up to the first erroneous line.
-/
namespace Linewise.Settings

inductive LineError where
  | invalidHeader
  | invalidSection
  | missingEquals
  | invalidKey
  | emptyValue
  | unescapedQuote
  | unterminatedEscape
  | unsupportedEscape (b : UInt8)
  | unsupportedValue
  deriving DecidableEq

def LineError.message : LineError → Bytes
  | .invalidHeader => utf8 "invalid section header"
  | .invalidSection => utf8 "invalid section name"
  | .missingEquals => utf8 "expected '='"
  | .invalidKey => utf8 "invalid key"
  | .emptyValue => utf8 "empty value"
  | .unescapedQuote => utf8 "unescaped quote inside string literal"
  | .unterminatedEscape => utf8 "unterminated escape in string literal"
  | .unsupportedEscape b => utf8 "unsupported escape '\\" ++ [b] ++ utf8 "'"
  | .unsupportedValue => utf8 "unsupported TOML value (expected string, integer or bool)"

inductive Entry where
  | nothing
  | header (name : Bytes)
  | assignment (key : Bytes) (value : Value)
  deriving DecidableEq

/-- Where a byte of a line stands: outside strings, inside one, or hidden by a backslash there. -/
inductive Quoting where
  | outside
  | inside
  | hidden
  deriving DecidableEq

/-- Where the byte after this one stands. -/
def Quoting.next (q : Quoting) (b : UInt8) : Quoting :=
  match q with
  | .outside => if b = Byte.quote then .inside else .outside
  | .inside =>
    if b = Byte.backslash then .hidden else if b = Byte.quote then .outside else .inside
  | .hidden => .inside

/-- The bytes up to the first `#` outside strings. -/
def uncommentedFrom (q : Quoting) : Bytes → Bytes
  | [] => []
  | b :: rest =>
    if q = .outside ∧ b = Byte.hash then [] else b :: uncommentedFrom (q.next b) rest

def uncommented (line : Bytes) : Bytes := uncommentedFrom .outside line

/-- Names are made of lower-case letters, digits and underscores. -/
def isName (s : Bytes) : Bool :=
  !s.isEmpty && s.all fun b => Byte.isLower b || Byte.isDigit b || b == Byte.underscore

def escape? (b : UInt8) : Option UInt8 :=
  if b = 0x6E then some Byte.lf
  else if b = 0x74 then some Byte.tab
  else if b = Byte.quote ∨ b = Byte.backslash then some b
  else none

/-- Reads the text between the quotes of a string. `escaped` tells whether a backslash came just
before, and `seen` holds the bytes so far in reverse. -/
def readString (escaped : Bool) (seen : Bytes) : Bytes → Except LineError Bytes
  | [] => if escaped then .error .unterminatedEscape else .ok seen.reverse
  | b :: rest =>
    if escaped then
      match escape? b with
      | some c => readString false (c :: seen) rest
      | none => .error (.unsupportedEscape b)
    else if b = Byte.quote then .error .unescapedQuote
    else if b = Byte.backslash then readString true seen rest
    else readString false (b :: seen) rest

/-- Whether a value starts and ends with quotes of its own. -/
def isQuoted (s : Bytes) : Bool :=
  2 ≤ s.length && s.head? == some Byte.quote && s.getLast? == some Byte.quote

/-- Reads a value. A plus sign may stand before an integer, also before its minus sign. -/
def readValue (s : Bytes) : Except LineError Value :=
  if s.isEmpty then .error .emptyValue
  else if s = utf8 "true" then .ok (.boolean true)
  else if s = utf8 "false" then .ok (.boolean false)
  else if isQuoted s then (readString false [] (s.drop 1).dropLast).map .text
  else
    match Decimal.whole? 64 (if s.head? == some Byte.plus then s.drop 1 else s) with
    | some n => .ok (.integer n)
    | none => .error .unsupportedValue

/-- Reads a line whose comment and outer blanks are gone. -/
def Entry.ofText (s : Bytes) : Except LineError Entry :=
  match s with
  | [] => .ok .nothing
  | b :: _ =>
    if b = Byte.openBracket then
      if s.getLast? ≠ some Byte.closeBracket then .error .invalidHeader
      else
        let name := Bytes.trim (s.drop 1).dropLast
        if isName name then .ok (.header name) else .error .invalidSection
    else if s.contains Byte.equals then
      let key := Bytes.trim (s.takeWhile (· != Byte.equals))
      if isName key then
        (readValue (Bytes.trim ((s.dropWhile (· != Byte.equals)).drop 1))).map (.assignment key)
      else .error .invalidKey
    else .error .missingEquals

def Entry.ofLine (line : Bytes) : Except LineError Entry :=
  Entry.ofText (uncommented line).trim

/-- A settings file as far as it could be read. -/
structure Document where
  values : Table := []
  /-- Lines that assign a key once more, with that key. -/
  repeated : List (Nat × Bytes) := []
  /-- The first erroneous line. -/
  error : Option (Nat × LineError) := none
  deriving DecidableEq, Inhabited

namespace Document

/-- A key with the section that it stands in, if any. -/
def fullKey (header key : Bytes) : Bytes :=
  if header.isEmpty then key else header ++ [Byte.dot] ++ key

/-- Goes through the lines from `number` on, with what the lines before them have set up. -/
def readFrom (number : Nat) (header : Bytes) (d : Document) : List Bytes → Document
  | [] => d
  | line :: rest =>
    match Entry.ofLine line with
    | .error e => { d with error := some (number, e) }
    | .ok .nothing => readFrom (number + 1) header d rest
    | .ok (.header name) => readFrom (number + 1) name d rest
    | .ok (.assignment key value) =>
      let key := fullKey header key
      let repeated := if d.values.has key then d.repeated ++ [(number, key)] else d.repeated
      readFrom (number + 1) header
        { d with values := d.values.put key value, repeated := repeated } rest

def read (text : Bytes) : Document :=
  readFrom 1 [] {} ((Newline.lf.pieces text).map (·.text))

/-- The place of a line in messages. -/
def position (name : Bytes) (number : Nat) : Bytes :=
  name ++ utf8 ":" ++ Decimal.ofNat number ++ utf8 ": "

/-- The warnings about repeated keys, with the file's name. -/
def warnings (name : Bytes) (d : Document) : List Bytes :=
  d.repeated.map fun r =>
    position name r.1 ++ utf8 "duplicate key " ++ r.2.quoted ++ utf8 ", overriding"

/-- Reads a named file and adds its warnings to those given before. -/
def readNamed (name text : Bytes) (warnings : List Bytes) : Document × List Bytes :=
  (read text, warnings ++ (read text).warnings name)

/-- The message of the first erroneous line, with the file's name. -/
def errorMessage? (name : Bytes) (d : Document) : Option Bytes :=
  d.error.map fun e => position name e.1 ++ e.2.message

end Document
end Linewise.Settings
