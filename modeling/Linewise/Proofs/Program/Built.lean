import Linewise.Proofs.Program.Interpreted
import Linewise.Proofs.Listing.Executed
/-!
The two builders' passes. Both go on at valid statements and fail at invalid ones whatever they
hold, which settles how they fail. What they make of valid statements follows from an invariant on
the statements behind them.
-/
namespace Linewise

/-- A pass over statements that goes on at valid ones and fails at invalid ones. -/
structure StopsAtInvalid {σ : Type} (step : σ → Statement → Except InvalidStatement σ) : Prop where
  goes : ∀ a s, s.kind ≠ .invalid → ∃ a', step a s = .ok a'
  stops : ∀ a s, s.kind = .invalid → step a s = .error ⟨s.line, s.span⟩

/-- Whatever a pass holds when it meets the first invalid statement, it fails there. -/
theorem StopsAtInvalid.foldlM_firstInvalid {σ : Type}
    {step : σ → Statement → Except InvalidStatement σ} (hstep : StopsAtInvalid step)
    {p : Program} {k : Nat} {e : InvalidStatement} (h : p.FirstInvalid k e) (a : σ) :
    p.foldlM step a = .error e := by
  obtain ⟨s, rest, hp, hs, rfl, hv⟩ := h.split
  rw [hp]
  generalize p.take k = front at hv
  induction front generalizing a with
  | nil => rw [List.nil_append, List.foldlM_cons, hstep.stops a s hs]; rfl
  | cons x front ih =>
      obtain ⟨hx, hfront⟩ := Program.valid_cons.mp hv
      obtain ⟨a', ha⟩ := hstep.goes a x hx
      rw [List.cons_append, List.foldlM_cons, ha]
      exact ih a' hfront

/-- What holds of the statements behind a pass, step by step, holds of all of them at its end. -/
theorem foldlM_valid {σ : Type} {step : σ → Statement → Except InvalidStatement σ}
    {Inv : σ → Program → Prop}
    (hstep : ∀ a done s, Inv a done → s.kind ≠ .invalid →
      ∃ a', step a s = .ok a' ∧ Inv a' (done ++ [s]))
    {p : Program} (hv : p.Valid) {a : σ} {done : Program} (h : Inv a done) :
    ∃ a', p.foldlM step a = .ok a' ∧ Inv a' (done ++ p) := by
  induction p generalizing a done with
  | nil => exact ⟨a, rfl, by simpa using h⟩
  | cons s p ih =>
      obtain ⟨hs, hp⟩ := Program.valid_cons.mp hv
      obtain ⟨a', ha, h'⟩ := hstep a done s h hs
      rw [List.foldlM_cons, ha, List.append_cons]
      exact ih hp h'

def Statement.instr? (s : Statement) : Option Instr :=
  match s.kind with
  | .emit => some ⟨.append s.payload, s.line⟩
  | .print => some ⟨.print, s.line⟩
  | .comment | .invalid => none

namespace Draft

variable (d : Draft) {s : Statement}

theorem step_comment (h : s.kind = .comment) :
    d.step s = .ok { d with comments := d.comments + 1 } := by simp only [step, h]

theorem step_emit (h : s.kind = .emit) :
    d.step s = .ok { d with instrs := ⟨.append s.payload, s.line⟩ :: d.instrs } := by
  simp only [step, h]

theorem step_print (h : s.kind = .print) :
    d.step s = .ok { d with instrs := ⟨.print, s.line⟩ :: d.instrs } := by simp only [step, h]

theorem step_invalid (h : s.kind = .invalid) : d.step s = .error ⟨s.line, s.span⟩ := by
  simp only [step, h]

theorem step_stops : StopsAtInvalid step where
  goes d s hs := by
    cases hk : s.kind with
    | comment => exact ⟨_, step_comment d hk⟩
    | emit => exact ⟨_, step_emit d hk⟩
    | print => exact ⟨_, step_print d hk⟩
    | invalid => exact absurd hk hs
  stops d _ hs := step_invalid d hs

/-- The draft holds the instructions of the statements behind it. -/
def Follows (d : Draft) (done : Program) : Prop := d.instrs.reverse = done.filterMap (·.instr?)

theorem Follows.step {d : Draft} {done : Program} {s : Statement} (h : d.Follows done)
    (hs : s.kind ≠ .invalid) : ∃ d', d.step s = .ok d' ∧ d'.Follows (done ++ [s]) := by
  unfold Follows at *
  rw [List.filterMap_append, ← h]
  cases hk : s.kind with
  | comment => exact ⟨_, step_comment d hk, by simp [Statement.instr?, hk]⟩
  | emit => exact ⟨_, step_emit d hk, by simp [Statement.instr?, hk]⟩
  | print => exact ⟨_, step_print d hk, by simp [Statement.instr?, hk]⟩
  | invalid => exact absurd hk hs

end Draft

namespace Folding

variable (f : Folding) {s : Statement}

theorem step_comment (h : s.kind = .comment) :
    f.step s = .ok { f with stats := { f.stats with comments := f.stats.comments + 1 } } := by
  simp only [step, h]

theorem step_emit (h : s.kind = .emit) :
    f.step s = .ok { f with text := f.text ++ s.payload, pending := s :: f.pending } := by
  simp only [step, h]

theorem step_print (h : s.kind = .print) :
    f.step s = .ok { f with
      instrs := ⟨.printLiteral f.text, s.line⟩ :: f.instrs
      stats := { f.stats with
        emitsFolded := f.stats.emitsFolded + UInt32.ofNat f.pending.length }
      pending := [] } := by
  simp only [step, h]

theorem step_invalid (h : s.kind = .invalid) : f.step s = .error ⟨s.line, s.span⟩ := by
  simp only [step, h]

theorem step_stops : StopsAtInvalid step where
  goes f s hs := by
    cases hk : s.kind with
    | comment => exact ⟨_, step_comment f hk⟩
    | emit => exact ⟨_, step_emit f hk⟩
    | print => exact ⟨_, step_print f hk⟩
    | invalid => exact absurd hk hs
  stops f _ hs := step_invalid f hs

/-- The text built up is what the statements behind it emit, and the literals are what they
print. -/
structure Follows (f : Folding) (done : Program) : Prop where
  text : f.text = done.emitted
  literals : f.instrs.reverse.map (·.op) = done.printed.map .printLiteral

theorem Follows.step {f : Folding} {done : Program} {s : Statement} (h : f.Follows done)
    (hs : s.kind ≠ .invalid) : ∃ f', f.step s = .ok f' ∧ f'.Follows (done ++ [s]) := by
  cases hk : s.kind with
  | comment =>
      refine ⟨_, step_comment f hk, ?_, ?_⟩
      · rw [Program.emitted_skip done (s := s) (by simp [hk])]
        exact h.text
      · rw [Program.printed_concat, if_neg (by simp [hk]), List.append_nil]
        exact h.literals
  | emit =>
      refine ⟨_, step_emit f hk, ?_, ?_⟩
      · rw [Program.emitted_concat done hk, ← h.text]
      · rw [Program.printed_concat, if_neg (by simp [hk]), List.append_nil]
        exact h.literals
  | print =>
      refine ⟨_, step_print f hk, ?_, ?_⟩
      · rw [Program.emitted_skip done (s := s) (by simp [hk])]
        exact h.text
      · rw [Program.printed_concat, if_pos hk, List.reverse_cons, List.map_append, h.literals,
          h.text, List.map_append]
        rfl
  | invalid => exact absurd hk hs

end Folding

namespace Program

theorem build_valid {p : Program} (hv : p.Valid) :
    ∃ l, p.build = .ok l ∧ l.instrs = p.filterMap (·.instr?) := by
  have hstart : Draft.Follows {} [] := rfl
  obtain ⟨d, hd, hfollows⟩ := foldlM_valid (fun _ _ _ h hs => Draft.Follows.step h hs) hv hstart
  refine ⟨d.finish, ?_, hfollows⟩
  rw [build, hd]
  rfl

theorem build_firstInvalid {p : Program} {k : Nat} {e : InvalidStatement}
    (h : p.FirstInvalid k e) : p.build = .error e := by
  rw [build, Draft.step_stops.foldlM_firstInvalid h]
  rfl

theorem buildOptimized_valid {p : Program} (hv : p.Valid) (warn : Bool) (bag : Option Bag) :
    ∃ l, (p.buildOptimized warn bag).1 = .ok l ∧
      l.instrs.map (·.op) = p.printed.map .printLiteral := by
  have hstart : Folding.Follows {} [] := ⟨rfl, rfl⟩
  obtain ⟨f, hf, hfollows⟩ := foldlM_valid (fun _ _ _ h hs => Folding.Follows.step h hs) hv hstart
  refine ⟨f.finish, ?_, hfollows.literals⟩
  rw [buildOptimized, hf]

theorem buildOptimized_firstInvalid {p : Program} {k : Nat} {e : InvalidStatement}
    (h : p.FirstInvalid k e) (warn : Bool) (bag : Option Bag) :
    p.buildOptimized warn bag = (.error e, bag) := by
  rw [buildOptimized, Folding.step_stops.foldlM_firstInvalid h]

theorem buildWith_firstInvalid {p : Program} {k : Nat} {e : InvalidStatement}
    (h : p.FirstInvalid k e) (optimize warn : Bool) (bag : Option Bag) :
    p.buildWith optimize warn bag = (.error e, bag) := by
  cases optimize with
  | false => simp [buildWith, build_firstInvalid h]
  | true => simp [buildWith, buildOptimized_firstInvalid h]

end Program
end Linewise
