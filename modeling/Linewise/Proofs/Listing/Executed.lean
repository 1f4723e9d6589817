import Linewise.Strategy
/-!
The executor's run. It looks at operations only, never at source lines, and it stops at the first
halt, so what stands after a halt and where an instruction comes from change nothing.
-/
namespace Linewise.Listing

theorem executeFrom_congr {is js : List Instr} (h : is.map (·.op) = js.map (·.op))
    (t : Transcript) (text : Bytes) : executeFrom t text is = executeFrom t text js := by
  induction is generalizing js t text with
  | nil =>
      rw [List.map_nil, eq_comm, List.map_eq_nil_iff] at h
      rw [h]
  | cons i is ih =>
      obtain ⟨j, js, rfl, hop, hrest⟩ := List.map_eq_cons_iff.mp h.symm
      simp only [executeFrom, hop]
      cases i.op with
      | append more => exact ih hrest.symm _ _
      | print => exact ih hrest.symm _ _
      | printLiteral value => exact ih hrest.symm _ _
      | halt => rfl

/-- Instructions after the first halt are never reached, and a halt at the end changes nothing. -/
theorem executeFrom_takeWhile {h : Instr} (hh : h.op = .halt) (is : List Instr) (t : Transcript)
    (text : Bytes) :
    executeFrom t text (is.takeWhile (fun i => i.op != .halt) ++ [h]) = executeFrom t text is := by
  induction is generalizing t text with
  | nil => simp [executeFrom, hh]
  | cons i is ih =>
      cases hi : i.op with
      | append more => simp [executeFrom, hi, ih]
      | print => simp [executeFrom, hi, ih]
      | printLiteral value => simp [executeFrom, hi, ih]
      | halt => simp [executeFrom, hi, hh]

theorem executeFrom_literals {is : List Instr} {values : List Bytes}
    (h : is.map (·.op) = values.map .printLiteral) (t : Transcript) (text : Bytes) :
    executeFrom t text is = values.foldl Transcript.add t := by
  induction values generalizing is t with
  | nil =>
      rw [List.map_nil, List.map_eq_nil_iff] at h
      rw [h]
      rfl
  | cons value values ih =>
      obtain ⟨i, is, rfl, hop, hrest⟩ := List.map_eq_cons_iff.mp h
      simp only [executeFrom, hop, List.foldl_cons]
      exact ih hrest _

end Linewise.Listing
