import Linewise.Proofs.Listing.Placement
import Linewise.Proofs.Program.Printed
import Linewise.Strategy
/-!
What a verification decides. It reports exactly the instructions that break the rules, in their
order, so a listing passes as an optimized one exactly if it prints literals and then at most stops.
What such a listing prints when it is executed is its literals.
-/
namespace Linewise

/-- The instruction has to do with the text built up so far. -/
def Op.usesText : Op → Bool
  | .append _ | .print => true
  | .printLiteral _ | .halt => false

namespace Listing
variable {strictness : Strictness}

/-- The instruction at a position is a halt before the last one, or it uses the text built up in a
listing that claims to do without. -/
def Offends (strictness : Strictness) (is : List Instr) (index : Nat) : Prop :=
  ∃ i ∈ is[index]?, i.op = .halt ∧ index + 1 < is.length ∨
    strictness = .optimized ∧ i.op.usesText = true

instance (strictness : Strictness) (is : List Instr) : DecidablePred (Offends strictness is) :=
  fun index => inferInstanceAs (Decidable (∃ i ∈ is[index]?, _))

theorem offends_zero (i : Instr) (is : List Instr) :
    Offends strictness (i :: is) 0 ↔ (i.op.violation? strictness is.isEmpty).isSome = true := by
  have hlast : 0 + 1 < (i :: is).length ↔ is.isEmpty = false := by
    cases is with
    | nil => simp
    | cons j is => simp
  simp only [Offends, hlast]
  cases hop : i.op with
  | append text => cases strictness <;> simp [hop, Op.violation?, Op.usesText]
  | print => cases strictness <;> simp [hop, Op.violation?, Op.usesText]
  | printLiteral text => simp [hop, Op.violation?, Op.usesText]
  | halt => cases is.isEmpty <;> simp [hop, Op.violation?, Op.usesText]

theorem offends_succ (i : Instr) (is : List Instr) (index : Nat) :
    Offends strictness (i :: is) (index + 1) ↔ Offends strictness is index := by
  simp [Offends]

/-- The positions that are reported, counted from the one that the verification starts at. -/
theorem map_index_misplacedFrom (index : Nat) (is : List Instr) :
    (misplacedFrom strictness index is).map (·.index) =
      ((List.range is.length).filter (Offends strictness is ·)).map (index + ·) := by
  induction is generalizing index with
  | nil => rfl
  | cons i is ih =>
      have hshift : ((List.range is.length).map Nat.succ).filter (Offends strictness (i :: is) ·) =
          ((List.range is.length).filter (Offends strictness is ·)).map Nat.succ := by
        rw [List.filter_map]
        simp only [Function.comp_def, Nat.succ_eq_add_one, offends_succ]
      rw [misplacedFrom, List.map_append, ih, List.length_cons, List.range_succ_eq_map,
        List.filter_cons, hshift]
      cases hviolation : i.op.violation? strictness is.isEmpty with
      | none =>
          have hfirst : ¬ Offends strictness (i :: is) 0 := by simp [offends_zero, hviolation]
          simp [hfirst, Nat.add_assoc, Nat.add_comm 1]
      | some v =>
          have hfirst : Offends strictness (i :: is) 0 := by simp [offends_zero, hviolation]
          simp [hfirst, Nat.add_assoc, Nat.add_comm 1]

/-- The errors are about the offending instructions, in their order. -/
theorem map_index_verify (l : Listing) (strictness : Strictness) :
    (l.verify strictness).map (·.index) =
      (List.range l.instrs.length).filter (Offends strictness l.instrs ·) := by
  rw [verify, map_index_misplacedFrom]
  simp

/-- The operations print literals, and a halt comes at most last. -/
def PrintsLiterals (ops : List Op) : Prop :=
  ∃ values : List Bytes,
    ops = values.map .printLiteral ∨ ops = values.map .printLiteral ++ [.halt]

theorem printsLiterals_cons_iff (op : Op) (ops : List Op) :
    PrintsLiterals (op :: ops) ↔
      (∃ value, op = .printLiteral value) ∧ PrintsLiterals ops ∨ op = .halt ∧ ops = [] := by
  constructor
  · rintro ⟨values, h⟩
    cases values with
    | nil =>
        rcases h with h | h
        · cases h
        · obtain ⟨rfl, rfl⟩ := List.cons.inj h
          exact .inr ⟨rfl, rfl⟩
    | cons value values =>
        rw [List.map_cons, List.cons_append] at h
        rcases h with h | h
        · obtain ⟨rfl, rfl⟩ := List.cons.inj h
          exact .inl ⟨⟨value, rfl⟩, values, .inl rfl⟩
        · obtain ⟨rfl, rfl⟩ := List.cons.inj h
          exact .inl ⟨⟨value, rfl⟩, values, .inr rfl⟩
  · rintro (⟨⟨value, rfl⟩, values, rfl | rfl⟩ | ⟨rfl, rfl⟩)
    · exact ⟨value :: values, .inl rfl⟩
    · exact ⟨value :: values, .inr rfl⟩
    · exact ⟨[], .inr rfl⟩

theorem PrintsLiterals.halt_not_mem_dropLast {ops : List Op} (h : PrintsLiterals ops) :
    .halt ∉ ops.dropLast := by
  obtain ⟨values, rfl | rfl⟩ := h
  · intro hmem
    simpa using (List.dropLast_prefix _).subset hmem
  · rw [List.dropLast_concat]
    simp

theorem PrintsLiterals.of_mem {ops : List Op} (h : PrintsLiterals ops) {op : Op} (hop : op ∈ ops)
    (hne : op ≠ .halt) : ∃ value, op = .printLiteral value := by
  obtain ⟨values, rfl | rfl⟩ := h
  · obtain ⟨value, -, rfl⟩ := List.mem_map.mp hop
    exact ⟨value, rfl⟩
  · rcases List.mem_append.mp hop with hop | hop
    · obtain ⟨value, -, rfl⟩ := List.mem_map.mp hop
      exact ⟨value, rfl⟩
    · exact absurd (List.mem_singleton.mp hop) hne

theorem misplacedFrom_cons_eq_nil_iff (index : Nat) (i : Instr) (is : List Instr) :
    misplacedFrom strictness index (i :: is) = [] ↔
      i.op.violation? strictness is.isEmpty = none ∧
        misplacedFrom strictness (index + 1) is = [] := by
  rw [misplacedFrom, List.append_eq_nil_iff, Option.toList_eq_nil_iff, Option.map_eq_none_iff]

theorem misplacedFrom_optimized_eq_nil_iff (index : Nat) (is : List Instr) :
    misplacedFrom .optimized index is = [] ↔ PrintsLiterals (is.map (·.op)) := by
  induction is generalizing index with
  | nil => exact iff_of_true rfl ⟨[], .inl rfl⟩
  | cons i is ih =>
      rw [misplacedFrom_cons_eq_nil_iff, ih, List.map_cons, printsLiterals_cons_iff]
      cases i.op with
      | append text => simp [Op.violation?]
      | print => simp [Op.violation?]
      | printLiteral text => simp [Op.violation?]
      | halt =>
          cases is with
          | nil => exact iff_of_true ⟨rfl, [], .inl rfl⟩ (.inr ⟨rfl, rfl⟩)
          | cons j is => simp [Op.violation?]

theorem misplacedFrom_any_eq_nil_iff (index : Nat) (is : List Instr) :
    misplacedFrom .any index is = [] ↔ .halt ∉ (is.map (·.op)).dropLast := by
  induction is generalizing index with
  | nil => simp [misplacedFrom]
  | cons i is ih =>
      rw [misplacedFrom_cons_eq_nil_iff, ih]
      cases is with
      | nil => cases i.op <;> simp [Op.violation?]
      | cons j is => cases hop : i.op <;> simp [hop, Op.violation?]

theorem values_executeFrom_of_printsLiterals {is : List Instr}
    (h : PrintsLiterals (is.map (·.op))) (t : Transcript) (text : Bytes) :
    (executeFrom t text is).values = t.values ++ is.filterMap (·.op.literal?) := by
  induction is generalizing t with
  | nil => simp [executeFrom]
  | cons i is ih =>
      rw [List.map_cons, printsLiterals_cons_iff] at h
      rcases h with ⟨⟨value, hop⟩, hrest⟩ | ⟨hop, hrest⟩
      · simp [executeFrom, hop, ih hrest, t.values_add, Op.literal?]
      · rw [List.map_eq_nil_iff] at hrest
        simp [executeFrom, hop, hrest, Op.literal?]

/-- A listing of literals prints them when it is executed. -/
theorem outputs_execute_of_printsLiterals {l : Listing}
    (h : PrintsLiterals (l.instrs.map (·.op))) :
    l.execute.outputs = l.instrs.filterMap (·.op.literal?) := by
  simpa [execute, Transcript.values] using values_executeFrom_of_printsLiterals h {} []

end Listing
end Linewise
