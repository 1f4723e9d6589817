import Linewise.Decimal
/-!
Listings. A program is compiled to a list of instructions on one growing text; an optimized listing
holds finished lines only. Instructions after the first halt are never reached.
-/
namespace Linewise

/-- One instruction: append to the text, print the text, print a literal or stop. -/
inductive Op where
  | append (text : Bytes)
  | print
  | printLiteral (text : Bytes)
  | halt
  deriving DecidableEq, Inhabited

namespace Op

/-- The word that opens the instruction in a listing. -/
def word : Op → Bytes
  | .append _ => utf8 "append"
  | .print => utf8 "print"
  | .printLiteral _ => utf8 "printlit"
  | .halt => utf8 "halt"

def literal? : Op → Option Bytes
  | .append text | .printLiteral text => some text
  | .print | .halt => none

def prints : Op → Bool
  | .print | .printLiteral _ => true
  | .append _ | .halt => false

end Op

/-- An instruction with the source line it comes from, or zero if it comes from none. -/
structure Instr where
  op : Op
  line : UInt32 := 0
  deriving DecidableEq, Inhabited

/-- What the builders left out or folded away. -/
structure Stats where
  emitsFolded : UInt32 := 0
  deadEmits : UInt32 := 0
  comments : UInt32 := 0
  deriving DecidableEq, Inhabited

structure Listing where
  instrs : List Instr := []
  optimized : Bool := false
  stats : Stats := {}
  deriving DecidableEq, Inhabited

namespace Listing

/-- The instructions before the first halt. -/
def live (l : Listing) : List Instr := l.instrs.takeWhile fun i => i.op != .halt

def prints (l : Listing) : UInt32 := UInt32.ofNat (l.instrs.countP fun i => i.op.prints)

end Listing
end Linewise
