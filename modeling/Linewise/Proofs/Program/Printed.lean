import Linewise.Proofs.Positions
import Linewise.Statement
import Linewise.Transcript
import Mathlib.Data.List.Basic
import Mathlib.Data.List.Induction
/-!
What a program prints, said without a machine: every print shows the payloads of all emits before
it. The strategies are compared with this, each by its own invariant on the statements it has seen.
-/
namespace Linewise

namespace Program

def emitted (p : Program) : Bytes := (p.filter fun s => s.kind = .emit).flatMap (·.payload)

/-- The value of every print, in order. -/
def printed (p : Program) : List Bytes :=
  p.zipIdx.filterMap fun s => if s.1.kind = .print then some (emitted (p.take s.2)) else none

def Valid (p : Program) : Prop := ∀ s ∈ p, s.kind ≠ .invalid

instance (p : Program) : Decidable p.Valid := List.decidableBAll _ p

theorem emitted_concat (p : Program) {s : Statement} (h : s.kind = .emit) :
    emitted (p ++ [s]) = emitted p ++ s.payload := by
  simp [emitted, List.filter_append, h]

theorem emitted_skip (p : Program) {s : Statement} (h : s.kind ≠ .emit) :
    emitted (p ++ [s]) = emitted p := by
  simp [emitted, List.filter_append, h]

/-- One more statement adds one value if it is a print, and none otherwise. -/
theorem printed_concat (p : Program) (s : Statement) :
    printed (p ++ [s]) = printed p ++ if s.kind = .print then [emitted p] else [] := by
  have hconcat := filterMap_zipIdx_concat
    (fun before s => if s.kind = .print then some (emitted before) else none) p s
  rw [apply_ite Option.toList] at hconcat
  exact hconcat

theorem length_printed (p : Program) : p.printed.length = p.countP fun s => s.kind = .print := by
  induction p using List.reverseRecOn with
  | nil => rfl
  | append_singleton p s ih =>
      rw [printed_concat, List.length_append, ih, List.countP_append]
      by_cases h : s.kind = .print
      · simp [h]
      · simp [h]

theorem valid_cons {s : Statement} {p : Program} :
    Valid (s :: p) ↔ s.kind ≠ .invalid ∧ p.Valid := List.forall_mem_cons

end Program

namespace Transcript

/-- The transcript of a run that has printed what the statements print. -/
def Shows (t : Transcript) (p : Program) : Prop :=
  t.values = p.printed ∧ t.count = UInt32.ofNat p.printed.length

theorem shows_nil : Shows {} [] := ⟨rfl, rfl⟩

theorem values_add (t : Transcript) (v : Bytes) : (t.add v).values = t.values ++ [v] :=
  List.reverse_cons

theorem Shows.print {t : Transcript} {p : Program} (h : t.Shows p) {s : Statement}
    (hs : s.kind = .print) : (t.add p.emitted).Shows (p ++ [s]) := by
  have hp : (p ++ [s] : Program).printed = p.printed ++ [p.emitted] := by
    rw [Program.printed_concat, if_pos hs]
  refine ⟨?_, ?_⟩
  · rw [values_add, h.1, hp]
  · have hc : (t.add p.emitted).count = t.count + 1 := rfl
    rw [hc, h.2, hp, List.length_append, UInt32.ofNat_add]
    rfl

theorem Shows.skip {t : Transcript} {p : Program} (h : t.Shows p) {s : Statement}
    (hs : s.kind ≠ .print) : t.Shows (p ++ [s]) := by
  unfold Shows
  rw [Program.printed_concat, if_neg hs, List.append_nil]
  exact h

end Transcript
end Linewise
