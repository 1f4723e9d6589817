import Linewise.Bytes
/-!
Literals of a listing. A literal stands in double quotes on one line; control bytes, quotes and
backslashes are escaped and all other bytes stand for themselves.
-/
namespace Linewise.Literal

def escapeByte (b : UInt8) : Bytes :=
  if b = Byte.backslash then utf8 "\\\\"
  else if b = Byte.quote then utf8 "\\\""
  else if b = Byte.lf then utf8 "\\n"
  else if b = Byte.cr then utf8 "\\r"
  else if b = Byte.tab then utf8 "\\t"
  else if b < 0x20 ∨ b = 0x7F then utf8 "\\x" ++ Byte.lowerHex b
  else [b]

def escape (s : Bytes) : Bytes := s.flatMap escapeByte

/-- A literal with its quotes. -/
def write (s : Bytes) : Bytes := Byte.quote :: escape s ++ [Byte.quote]

inductive Fault where
  | missingQuote
  | truncatedHex
  | invalidHex
  | unknownEscape (b : UInt8)
  | unterminated
  deriving DecidableEq

def Fault.reason : Fault → Bytes
  | .missingQuote => utf8 "expected '\"'"
  | .truncatedHex => utf8 "truncated \\x escape"
  | .invalidHex => utf8 "invalid \\x escape"
  | .unknownEscape b => utf8 "unknown escape '\\" ++ [b] ++ utf8 "'"
  | .unterminated => utf8 "unterminated string literal"

/-- The byte of an escape of one letter. -/
def shortEscape? (b : UInt8) : Option UInt8 :=
  if b = Byte.backslash then some Byte.backslash
  else if b = Byte.quote then some Byte.quote
  else if b = 0x6E then some Byte.lf
  else if b = 0x72 then some Byte.cr
  else if b = 0x74 then some Byte.tab
  else none

/-- Reads what follows a backslash: a letter, or `x` and two hexadecimal digits. -/
def readEscape : Bytes → Except Fault (UInt8 × Bytes)
  | [] => .error .unterminated
  | e :: rest =>
    match shortEscape? e with
    | some b => .ok (b, rest)
    | none =>
      if e = 0x78 then
        match rest with
        | h₁ :: h₂ :: rest =>
          match Byte.hexValue? h₁, Byte.hexValue? h₂ with
          | some v₁, some v₂ => .ok (v₁ * 16 + v₂, rest)
          | _, _ => .error .invalidHex
        | _ => .error .truncatedHex
      else .error (.unknownEscape e)

theorem readEscape_length {s rest : Bytes} {b : UInt8} (h : readEscape s = .ok (b, rest)) :
    rest.length < s.length := by
  unfold readEscape at h
  repeat' split at h
  all_goals cases h
  all_goals simp only [List.length_cons]; omega

/-- Reads up to the closing quote and returns what follows it. `seen` holds the bytes read so far
in reverse. -/
def readBody (seen : Bytes) : Bytes → Except Fault (Bytes × Bytes)
  | [] => .error .unterminated
  | b :: rest =>
    if b = Byte.quote then .ok (seen.reverse, rest)
    else if b = Byte.backslash then
      match _h : readEscape rest with
      | .error fault => .error fault
      | .ok (c, more) => readBody (c :: seen) more
    else readBody (b :: seen) rest
termination_by s => s.length
decreasing_by
  · exact Nat.lt_succ_of_lt (readEscape_length _h)
  · exact Nat.lt_succ_self _

/-- Reads a literal after optional blanks and returns what follows it. -/
def read (s : Bytes) : Except Fault (Bytes × Bytes) :=
  match s.dropWhile Byte.isBlank with
  | [] => .error .missingQuote
  | b :: rest => if b = Byte.quote then readBody [] rest else .error .missingQuote

end Linewise.Literal
