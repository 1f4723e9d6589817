import Linewise.Proofs.Program.Built
/-!
How the strategies fail. An invalid statement stops the interpreter after what the statements before
it print, and it stops everything that builds before anything is shown; all of them name the first
one.
-/
namespace Linewise

namespace Program

theorem buildAndRun_firstInvalid {p : Program} {k : Nat} {e : InvalidStatement}
    (h : p.FirstInvalid k e) (optimize : Bool) : p.buildAndRun optimize = .stopped [] e := by
  rw [buildAndRun, buildWith_firstInvalid h]
  rfl

end Program

theorem Strategy.run_aheadOfTime_firstInvalid {p : Program} {k : Nat} {e : InvalidStatement}
    (h : p.FirstInvalid k e) {σ : Type} (options : CompileOptions) (hasOutput : Bool)
    (sink : Sink σ) (bag : Option Bag) (s : σ) :
    Strategy.run .aheadOfTime options ⟨hasOutput, some sink, bag⟩ p s =
      ⟨[], .invalidAfter 0 e, bag, s⟩ := by
  simp only [run, Program.compile, Program.buildWith_firstInvalid h]

namespace Program

end Program
end Linewise
