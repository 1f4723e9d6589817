import Linewise.Listing.Verify
import Mathlib.Data.List.Basic
/-!
Where instructions may stand. Only a halt depends on its position, so every other instruction is
misplaced everywhere or nowhere, and those that are nowhere misplaced can be skipped in a
verification.
-/
namespace Linewise

/-- The instruction may stand at any position. -/
def Op.Placed (strictness : Strictness) (op : Op) : Prop :=
  ∀ last, op.violation? strictness last = none

namespace Op

theorem placed_any {op : Op} (h : op ≠ .halt) : op.Placed .any := by
  intro last
  cases op with
  | append text | printLiteral text | print => rfl
  | halt => exact absurd rfl h

theorem placed_printLiteral (strictness : Strictness) (text : Bytes) :
    (printLiteral text).Placed strictness := fun _ => rfl

theorem placed_of_violation? {strictness : Strictness} {op : Op} {last : Bool} (hop : op ≠ .halt)
    (h : op.violation? strictness last = none) : op.Placed strictness := by
  intro last'
  cases op with
  | append text | printLiteral text | print => exact h
  | halt => exact absurd rfl hop

end Op

namespace Listing

variable {strictness : Strictness}

theorem misplacedFrom_append {front : List Instr} (h : ∀ i ∈ front, i.op.Placed strictness)
    (index : Nat) (tail : List Instr) :
    misplacedFrom strictness index (front ++ tail) =
      misplacedFrom strictness (index + front.length) tail := by
  induction front generalizing index with
  | nil => rfl
  | cons i front ih =>
      rw [List.forall_mem_cons] at h
      rw [List.cons_append, misplacedFrom, h.1, ih h.2, List.length_cons, Nat.add_right_comm,
        Nat.add_assoc]
      rfl

theorem verify_of_placed {l : Listing} (h : ∀ i ∈ l.instrs, i.op.Placed strictness) :
    l.verify strictness = [] := by
  have happend := misplacedFrom_append h 0 []
  rw [List.append_nil] at happend
  exact happend

theorem verify_of_placed_halt {l : Listing} {front : List Instr} {i : Instr}
    (hl : l.instrs = front ++ [i]) (hi : i.op = .halt) (h : ∀ j ∈ front, j.op.Placed strictness) :
    l.verify strictness = [] := by
  rw [verify, hl, misplacedFrom_append h, misplacedFrom, hi]
  rfl

/-- In a well-formed listing everything before the first halt could stand anywhere. -/
theorem placed_of_misplacedFrom {is : List Instr} {index : Nat}
    (h : misplacedFrom strictness index is = []) :
    ∀ i ∈ is.takeWhile fun i => i.op != .halt, i.op.Placed strictness := by
  induction is generalizing index with
  | nil => simp
  | cons i is ih =>
      rw [misplacedFrom, List.append_eq_nil_iff] at h
      obtain ⟨hfirst, hrest⟩ := h
      by_cases hop : i.op = .halt
      · simp [hop]
      · -- Its own position was no violation, so no position is.
        have hviolation : i.op.violation? strictness is.isEmpty = none := by
          simpa using hfirst
        rw [List.takeWhile_cons_of_pos (by simpa using hop), List.forall_mem_cons]
        exact ⟨Op.placed_of_violation? hop hviolation, ih hrest⟩

end Listing
end Linewise
