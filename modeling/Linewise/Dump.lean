import Linewise.Listing.Literal
import Linewise.Listing.Basic
import Linewise.Statement
/-!
Dumps for reading: a table of a program's statements and one of a listing's instructions. Literals
are escaped, so every statement and every instruction takes exactly one line.
-/
namespace Linewise

/-- A name and a number, as `name=number`. -/
def field (name : String) (value : Bytes) : Bytes := utf8 name ++ utf8 "=" ++ value

/-- The row of a statement: line, kind, payload of an emit, and byte range. -/
def Statement.dump (s : Statement) : Bytes :=
  utf8 "  L" ++ Decimal.ofWord s.line ++ utf8 " " ++ s.kind.name ++
    (if s.kind = .emit then utf8 " " ++ Literal.write s.payload else []) ++
    utf8 "  [" ++ Decimal.ofWord s.span.lo ++ utf8 ", " ++ Decimal.ofWord s.span.hi ++ utf8 ")\n"

/-- A program's statements below their counts. -/
def Program.dump (p : Program) : Bytes :=
  utf8 "\nSTMTS:\n" ++
    utf8 "  " ++ field "total" (Decimal.ofNat p.length) ++
    utf8 " " ++ field "emit" (Decimal.ofWord (p.count .emit)) ++
    utf8 " " ++ field "print" (Decimal.ofWord (p.count .print)) ++
    utf8 " " ++ field "comment" (Decimal.ofWord (p.count .comment)) ++
    utf8 " " ++ field "invalid" (Decimal.ofWord (p.count .invalid)) ++ utf8 "\n" ++
    p.flatMap Statement.dump

def Instr.dump (i : Instr) (index : Nat) : Bytes :=
  utf8 "    #" ++ Decimal.ofNat index ++ utf8 " " ++ i.op.word ++
    (match i.op.literal? with
    | some text => utf8 " " ++ Literal.write text
    | none => []) ++
    (if i.line = 0 then [] else utf8 "    ; line " ++ Decimal.ofWord i.line) ++ utf8 "\n"

/-- A listing's instructions below its counts. -/
def Listing.dump (l : Listing) : Bytes :=
  utf8 "\nQIR:\n" ++
    utf8 "  " ++ field "insts" (Decimal.ofNat l.instrs.length) ++
    utf8 " " ++ field "prints" (Decimal.ofWord l.prints) ++
    utf8 " " ++ field "optimized" (if l.optimized then utf8 "true" else utf8 "false") ++
    utf8 "\n  opt_stats: " ++ field "emits_folded" (Decimal.ofWord l.stats.emitsFolded) ++
    utf8 " " ++ field "dead_emits_eliminated" (Decimal.ofWord l.stats.deadEmits) ++
    utf8 " " ++ field "comments_skipped" (Decimal.ofWord l.stats.comments) ++ utf8 "\n" ++
    l.instrs.zipIdx.flatMap fun i => i.1.dump i.2

end Linewise
