import Linewise.Diagnostic.Basic
import Linewise.Listing.Basic
import Linewise.Listing.Literal
/-!
The text of a listing: a header comment, then one instruction a line, the last of them a halt. Lines
end at a line feed, whatever newline rule the source had. Blank lines and comments mean nothing,
save that a marker comment before the first instruction declares the listing optimized.
-/
namespace Linewise

namespace Listing

def header : Bytes := utf8 "; quill qir v1"

def marker : Bytes := utf8 "; optimized"

end Listing

/-- An instruction's line without its end. -/
def Op.write (op : Op) : Bytes :=
  match op.literal? with
  | some text => op.word ++ utf8 " " ++ Literal.write text
  | none => op.word

/-- The text of a listing; source lines and statistics are not part of it. -/
def Listing.write (l : Listing) : Bytes :=
  header ++ utf8 "\n" ++ (if l.optimized then marker ++ utf8 "\n" else []) ++
    l.live.flatMap (fun i => i.op.write ++ utf8 "\n") ++ Op.halt.write ++ utf8 "\n"

/-- Why a line is no instruction. Offsets count from the start of the line. -/
inductive LineFault where
  | unknownOpcode (start : Nat) (word : Bytes)
  | malformedLiteral (start : Nat) (cause : Literal.Fault)
  | trailingText (start : Nat) (op : Op)
  deriving DecidableEq

/-- A line that opens with a halt ends the listing, even if it goes on where it should not. -/
def LineFault.halts : LineFault → Bool
  | .trailingText _ op => op = .halt
  | .unknownOpcode _ _ | .malformedLiteral _ _ => false

inductive LineReading where
  | blank
  | comment (text : Bytes)
  | instruction (op : Op)
  | fault (cause : LineFault)
  deriving DecidableEq

namespace LineReading

def isWordByte (b : UInt8) : Bool :=
  !(Byte.isBlank b || b == Byte.semicolon || b == Byte.quote)

/-- Accepts an instruction of a line with `size` bytes if only blanks and a comment follow it. -/
def ofRest (size : Nat) (op : Op) (rest : Bytes) : LineReading :=
  match rest.dropWhile Byte.isBlank with
  | [] => .instruction op
  | b :: more =>
    if b = Byte.semicolon then .instruction op
    else .fault (.trailingText (size - (b :: more).length) op)

def ofLiteral (size : Nat) (op : Bytes → Op) (rest : Bytes) : LineReading :=
  match Literal.read rest with
  | .ok (text, rest) => ofRest size (op text) rest
  | .error cause => .fault (.malformedLiteral (size - rest.length) cause)

/-- Reads what follows the word at `start`, as the word asks. -/
def ofWord (size start : Nat) (word rest : Bytes) : LineReading :=
  if word = utf8 "append" then ofLiteral size .append rest
  else if word = utf8 "printlit" then ofLiteral size .printLiteral rest
  else if word = utf8 "print" then ofRest size .print rest
  else if word = utf8 "halt" then ofRest size .halt rest
  else .fault (.unknownOpcode start word)

def ofLine (line : Bytes) : LineReading :=
  match line.dropWhile Byte.isBlank with
  | [] => .blank
  | b :: more =>
    if b = Byte.semicolon then .comment (b :: more)
    else
      ofWord line.length (line.length - (b :: more).length)
        ((b :: more).takeWhile isWordByte) ((b :: more).dropWhile isWordByte)

end LineReading

namespace Diagnostic

/-- An error between two offsets of a file. -/
def inListing (finding : Finding) (file : UInt32) (lo hi : UInt32) (args : List Bytes) :
    Diagnostic :=
  ⟨.error, finding, ⟨file, lo, hi⟩, args⟩

/-- The diagnostic of a line that is no instruction. -/
def ofFault (file : UInt32) (l : Line) : LineFault → Diagnostic
  | .unknownOpcode start word =>
    let lo := l.start + UInt32.ofNat start
    if word.isEmpty then inListing .unknownOpcode file lo (lo + 1) [[Byte.quote]]
    else inListing .unknownOpcode file lo (lo + UInt32.ofNat word.length) [word]
  | .malformedLiteral start cause =>
    inListing .malformedLiteral file (l.start + UInt32.ofNat start)
      (l.start + UInt32.ofNat l.text.length) [cause.reason]
  | .trailingText start _ =>
    inListing .malformedLiteral file (l.start + UInt32.ofNat start)
      (l.start + UInt32.ofNat l.text.length) [utf8 "unexpected trailing text"]

/-- Reported at the end of a listing without a halt. -/
def missingHalt (file : UInt32) (text : Bytes) : Diagnostic :=
  let stop := UInt32.ofNat text.length
  inListing .missingHalt file stop stop []

/-- Reported once, at the first line with content after the halt. -/
def trailingAfterHalt (file : UInt32) (l : Line) : Diagnostic :=
  inListing .trailingAfterHalt file l.start (l.start + UInt32.ofNat l.text.length) []

end Diagnostic

end Linewise
