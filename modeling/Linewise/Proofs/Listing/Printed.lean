import Linewise.Proofs.Positions
import Linewise.Proofs.Program.Printed
import Linewise.Strategy
/-!
What the operations of a listing print, said without a machine: a literal prints itself, and every
other print shows all that was appended before it. The executor prints just that.
-/
namespace Linewise

namespace Op

/-- All that these operations append. -/
def appended (ops : List Op) : Bytes :=
  ops.flatMap fun
    | .append text => text
    | .print | .printLiteral _ | .halt => []

/-- What an operation prints behind these. -/
def printed? (before : List Op) : Op → Option Bytes
  | .print => some (appended before)
  | .printLiteral text => some text
  | .append _ | .halt => none

/-- The values that operations print, in order. -/
def printed (ops : List Op) : List Bytes :=
  ops.zipIdx.filterMap fun e => printed? (ops.take e.2) e.1

theorem appended_concat (ops : List Op) (op : Op) :
    appended (ops ++ [op]) = appended ops ++ appended [op] := List.flatMap_append

theorem printed_concat (ops : List Op) (op : Op) :
    printed (ops ++ [op]) = printed ops ++ (op.printed? ops).toList :=
  filterMap_zipIdx_concat printed? ops op

end Op

namespace Listing

/-- One step of the executor. Its text is what the operations behind it append, and its transcript is
what they print. -/
theorem executeFrom_step {i : Instr} (hop : i.op ≠ .halt) {done : List Op} {t : Transcript}
    (ht : t.values = Op.printed done) :
    ∃ t' : Transcript, t'.values = Op.printed (done ++ [i.op]) ∧ ∀ is,
      executeFrom t (Op.appended done) (i :: is) =
        executeFrom t' (Op.appended (done ++ [i.op])) is := by
  rw [Op.printed_concat, Op.appended_concat, ← ht]
  cases hi : i.op with
  | append more =>
      refine ⟨t, (List.append_nil _).symm, ?_⟩
      intro is
      rw [executeFrom, hi]
      simp [Op.appended]
  | print =>
      refine ⟨t.add (Op.appended done), t.values_add _, ?_⟩
      intro is
      rw [executeFrom, hi]
      simp [Op.appended]
  | printLiteral value =>
      refine ⟨t.add value, t.values_add _, ?_⟩
      intro is
      rw [executeFrom, hi]
      simp [Op.appended]
  | halt => exact absurd hi hop

theorem executeFrom_values (is : List Instr) {done : List Op} {t : Transcript}
    (ht : t.values = Op.printed done) :
    (executeFrom t (Op.appended done) is).values =
      Op.printed (done ++ (is.takeWhile fun i => i.op != .halt).map (·.op)) := by
  induction is generalizing done t with
  | nil => simpa [executeFrom] using ht
  | cons i is ih =>
      by_cases hop : i.op = .halt
      · simpa [executeFrom, hop] using ht
      · obtain ⟨t', ht', hstep⟩ := executeFrom_step hop ht
        rw [hstep, ih ht', List.takeWhile_cons_of_pos (by simpa using hop), List.map_cons,
          ← List.append_cons]

/-- The executor prints what the operations before the first halt print. -/
theorem outputs_execute (l : Listing) : l.execute.outputs = Op.printed (l.live.map (·.op)) := by
  have hnothing : ({} : Transcript).values = Op.printed [] := rfl
  exact executeFrom_values l.instrs hnothing

end Listing
end Linewise
