import Linewise.Proofs.Program.Built
import Mathlib.Data.List.DropRight
/-!
Dead emits. What the optimizing builder has pending is what follows the last print behind it, so at
the end it reports the emits after the last print of the program and no others.
-/
namespace Linewise

namespace Program

/-- The emits after the last print. -/
def trailingEmits (p : Program) : List Statement :=
  (p.rtakeWhile fun s => s.kind ≠ .print).filter fun s => s.kind = .emit

theorem trailingEmits_print (p : Program) {s : Statement} (hs : s.kind = .print) :
    trailingEmits (p ++ [s]) = [] := by
  rw [trailingEmits, List.rtakeWhile_concat_neg _ _ _ (by simp [hs]), List.filter_nil]

theorem trailingEmits_concat (p : Program) {s : Statement} (hs : s.kind ≠ .print) :
    trailingEmits (p ++ [s]) = p.trailingEmits ++ if s.kind = .emit then [s] else [] := by
  rw [trailingEmits, List.rtakeWhile_concat_pos _ _ _ (by simp [hs]), List.filter_append]
  by_cases hemit : s.kind = .emit
  · simp [hemit, trailingEmits]
  · simp [hemit, trailingEmits]

end Program

namespace Folding

/-- What is pending are the emits after the last print behind the builder. -/
def Leaves (f : Folding) (done : Program) : Prop := f.pending.reverse = done.trailingEmits

theorem Leaves.step {f : Folding} {done : Program} {s : Statement} (h : f.Leaves done)
    (hs : s.kind ≠ .invalid) : ∃ f', f.step s = .ok f' ∧ f'.Leaves (done ++ [s]) := by
  unfold Leaves at *
  cases hk : s.kind with
  | comment =>
      refine ⟨_, step_comment f hk, ?_⟩
      rw [Program.trailingEmits_concat done (by simp [hk]), if_neg (by simp [hk]), List.append_nil]
      exact h
  | emit =>
      refine ⟨_, step_emit f hk, ?_⟩
      rw [Program.trailingEmits_concat done (by simp [hk]), if_pos hk, List.reverse_cons, h]
  | print =>
      -- The print takes up all that is pending.
      exact ⟨_, step_print f hk, (Program.trailingEmits_print done hk).symm⟩
  | invalid => exact absurd hk hs

end Folding

@[simp] theorem Bag.report_nil (b : Bag) : b.report [] = b := by
  rw [report, List.append_nil]

namespace Program

theorem buildOptimized_reports {p : Program} (hv : p.Valid) (warn : Bool) (bag : Option Bag) :
    (p.buildOptimized warn bag).2 =
      bag.map (·.report (if warn then p.trailingEmits.map .deadEmit else [])) := by
  have hstart : Folding.Leaves {} [] := rfl
  obtain ⟨f, hf, hleaves⟩ := foldlM_valid (fun _ _ _ h hs => Folding.Leaves.step h hs) hv hstart
  have hpending : f.pending.reverse = p.trailingEmits := hleaves
  rw [buildOptimized, hf]
  simp only [hpending]

/-- The bag only receives; no builder looks into it, and warnings change nothing that is built. -/
theorem buildWith_fst_congr (p : Program) (optimize warn warn' : Bool) (bag bag' : Option Bag) :
    (p.buildWith optimize warn bag).1 = (p.buildWith optimize warn' bag').1 := by
  simp only [buildWith, buildOptimized]
  cases optimize with
  | false => rfl
  | true => cases p.foldlM Folding.step {} with
    | error e => rfl
    | ok f => rfl

theorem buildWith_reports {p : Program} (hv : p.Valid) (optimize warn : Bool) (bag : Option Bag) :
    (p.buildWith optimize warn bag).2 =
      bag.map (·.report (if optimize && warn then p.trailingEmits.map .deadEmit else [])) := by
  cases optimize with
  | false => simp [buildWith]
  | true => simpa [buildWith] using buildOptimized_reports hv warn bag

end Program
end Linewise
