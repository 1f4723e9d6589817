import Linewise.Statement
import Linewise.Transcript
/-!
The interpreter. It is pulled for one value at a time and has looked at no statement beyond the
print that gave the last one, so what a program prints before an invalid statement is already out
when the run fails.
-/
namespace Linewise

inductive Ending where
  | done
  | failed (error : InvalidStatement)
  deriving DecidableEq

inductive Step where
  | output (text : Bytes)
  | ended (ending : Ending)
  deriving DecidableEq

/-- The statements not looked at yet, the text built up so far, and the ending once it is known. -/
structure Interpreter where
  rest : Program
  text : Bytes := []
  ending : Option Ending := none
  deriving DecidableEq

namespace Interpreter

def ofProgram (p : Program) : Interpreter := { rest := p }

def finished (it : Interpreter) : Bool := it.ending.isSome

/-- Runs statements up to the next print or the end. -/
def advance (text : Bytes) : Program → Step × Interpreter
  | [] => (.ended .done, ⟨[], text, some .done⟩)
  | s :: rest =>
    match s.kind with
    | .comment => advance text rest
    | .emit => advance (text ++ s.payload) rest
    | .print => (.output text, ⟨rest, text, none⟩)
    | .invalid =>
      let ending := .failed ⟨s.line, s.span⟩
      (.ended ending, ⟨rest, text, some ending⟩)

/-- The next value, or the ending. Once it has ended it stays so. -/
def next (it : Interpreter) : Step × Interpreter :=
  match it.ending with
  | some ending => (.ended ending, it)
  | none => advance it.text it.rest

theorem advance_output {text value : Bytes} {p : Program} {it : Interpreter}
    (h : advance text p = (.output value, it)) : it.rest.length < p.length := by
  induction p generalizing text with
  | nil => simp [advance] at h
  | cons s rest ih =>
    unfold advance at h
    split at h
    · exact Nat.lt_succ_of_lt (ih h)
    · exact Nat.lt_succ_of_lt (ih h)
    · cases h; exact Nat.lt_succ_self _
    · cases h

theorem next_output {it it' : Interpreter} {value : Bytes}
    (h : it.next = (.output value, it')) : it'.rest.length < it.rest.length := by
  unfold next at h
  split at h
  · cases h
  · exact advance_output h

/-- Pulls until the run ends and prints each value before the next pull. -/
def runTo (t : Transcript) (it : Interpreter) : Transcript × Ending :=
  match _h : it.next with
  | (.output value, it') => it'.runTo (t.add value)
  | (.ended ending, _) => (t, ending)
termination_by it.rest.length
decreasing_by exact next_output _h

end Interpreter
end Linewise
