import Linewise.Listing.Basic
/-!
Well-formed listings. A halt may only come last; an optimized listing moreover carries no state, so
it may neither append nor print the text built up so far.
-/
namespace Linewise

inductive Strictness where
  | any
  | optimized
  deriving DecidableEq, Inhabited

inductive Violation where
  | haltNotLast
  | appendsText
  | printsText
  deriving DecidableEq

def Violation.rule : Violation → Bytes
  | .haltNotLast => utf8 "halt must be the last instruction"
  | .appendsText => utf8 "optimized module must not contain append"
  | .printsText => utf8 "optimized module must not contain print (use printlit)"

/-- A violation with the position and the source line of its instruction. -/
structure Misplaced where
  index : Nat
  line : UInt32
  violation : Violation
  deriving DecidableEq

/-- Names the instruction, its source line if it has one, and the rule. -/
def Misplaced.message (m : Misplaced) : Bytes :=
  utf8 "inst #" ++ Decimal.ofNat m.index ++
    (if m.line = 0 then [] else utf8 " (line " ++ Decimal.ofWord m.line ++ utf8 ")") ++
    utf8 ": " ++ m.violation.rule

/-- The violation of an instruction, given whether it is the last one. -/
def Op.violation? (strictness : Strictness) (last : Bool) : Op → Option Violation
  | .halt => if last then none else some .haltNotLast
  | .append _ => if strictness = .optimized then some .appendsText else none
  | .print => if strictness = .optimized then some .printsText else none
  | .printLiteral _ => none

namespace Listing

/-- The misplaced instructions among those from position `index` on. -/
def misplacedFrom (strictness : Strictness) (index : Nat) : List Instr → List Misplaced
  | [] => []
  | i :: rest =>
    ((i.op.violation? strictness rest.isEmpty).map fun v => ⟨index, i.line, v⟩).toList ++
      misplacedFrom strictness (index + 1) rest

def verify (strictness : Strictness) (l : Listing) : List Misplaced :=
  misplacedFrom strictness 0 l.instrs

/-- What a listing claims to be decides how strictly it is verified. -/
def strictness (l : Listing) : Strictness := if l.optimized then .optimized else .any

end Listing
end Linewise
