import Linewise.Proofs.Program.Invalid
import Linewise.Strategy
/-!
The interpreter's run. Between two statements its text is what the statements behind it emit and
its transcript is what they print; a pull may cross many statements, so the steps are stated for
the run that goes on and not for the pull.
-/
namespace Linewise

namespace Interpreter

theorem runTo_output {it it' : Interpreter} {value : Bytes} (h : it.next = (.output value, it'))
    (t : Transcript) : it.runTo t = it'.runTo (t.add value) := by
  rw [runTo]
  split
  · rename_i heq
    rw [h] at heq
    cases heq
    rfl
  · rename_i heq
    rw [h] at heq
    cases heq

theorem runTo_ended {it it' : Interpreter} {ending : Ending} (h : it.next = (.ended ending, it'))
    (t : Transcript) : it.runTo t = (t, ending) := by
  rw [runTo]
  split
  · rename_i heq
    rw [h] at heq
    cases heq
  · rename_i heq
    rw [h] at heq
    cases heq
    rfl

theorem runTo_congr {it it' : Interpreter} (h : it.next = it'.next) (t : Transcript) :
    it.runTo t = it'.runTo t := by
  rcases hn : it'.next with ⟨step, after⟩
  cases step with
  | output value => rw [runTo_output (h.trans hn), runTo_output hn]
  | ended ending => rw [runTo_ended (h.trans hn), runTo_ended hn]

variable {s : Statement} (t : Transcript) (text : Bytes) (rest : Program)

theorem runTo_nil : (⟨[], text, none⟩ : Interpreter).runTo t = (t, .done) :=
  runTo_ended rfl t

theorem runTo_comment (hs : s.kind = .comment) :
    (⟨s :: rest, text, none⟩ : Interpreter).runTo t =
      (⟨rest, text, none⟩ : Interpreter).runTo t :=
  runTo_congr (by simp only [next, advance, hs]) t

theorem runTo_emit (hs : s.kind = .emit) :
    (⟨s :: rest, text, none⟩ : Interpreter).runTo t =
      (⟨rest, text ++ s.payload, none⟩ : Interpreter).runTo t :=
  runTo_congr (by simp only [next, advance, hs]) t

theorem runTo_print (hs : s.kind = .print) :
    (⟨s :: rest, text, none⟩ : Interpreter).runTo t =
      (⟨rest, text, none⟩ : Interpreter).runTo (t.add text) :=
  runTo_output (by simp only [next, advance, hs]) t

theorem runTo_invalid (hs : s.kind = .invalid) :
    (⟨s :: rest, text, none⟩ : Interpreter).runTo t = (t, .failed ⟨s.line, s.span⟩) := by
  have hnext : (⟨s :: rest, text, none⟩ : Interpreter).next =
      (.ended (.failed ⟨s.line, s.span⟩), ⟨rest, text, some (.failed ⟨s.line, s.span⟩)⟩) := by
    simp only [next, advance, hs]
  exact runTo_ended hnext t

/-- A run crosses valid statements: it has printed what they print, and its text is what they
emit, when it meets what follows them. -/
theorem runTo_valid {front : Program} (hv : front.Valid) {done : Program} {t : Transcript}
    (ht : t.Shows done) (rest : Program) :
    ∃ t' : Transcript, t'.Shows (done ++ front) ∧
      (⟨front ++ rest, done.emitted, none⟩ : Interpreter).runTo t =
        (⟨rest, (done ++ front : Program).emitted, none⟩ : Interpreter).runTo t' := by
  induction front generalizing done t with
  | nil => exact ⟨t, by simpa using ht, by simp⟩
  | cons s front ih =>
      obtain ⟨hs, hfront⟩ := Program.valid_cons.mp hv
      rw [List.append_cons done s front, List.cons_append]
      cases hk : s.kind with
      | comment =>
          have hp : s.kind ≠ .print := by simp [hk]
          rw [runTo_comment t _ _ hk, ← Program.emitted_skip done (s := s) (by simp [hk])]
          exact ih hfront (ht.skip hp)
      | emit =>
          have hp : s.kind ≠ .print := by simp [hk]
          rw [runTo_emit t _ _ hk, ← Program.emitted_concat done hk]
          exact ih hfront (ht.skip hp)
      | print =>
          have hnext := ih hfront (ht.print hk)
          rw [Program.emitted_skip done (s := s) (by simp [hk])] at hnext
          rw [runTo_print t _ _ hk]
          exact hnext
      | invalid => exact absurd hk hs

end Interpreter

/-- The run that ended well after printing these values. -/
def Execution.complete (values : List Bytes) : Execution :=
  ⟨values, .success (UInt32.ofNat values.length)⟩

/-- The run that an invalid statement stopped after printing these values. -/
def Execution.stopped (values : List Bytes) (e : InvalidStatement) : Execution :=
  ⟨values, .invalidAfter (UInt32.ofNat values.length) e⟩

namespace Program

theorem interpret_valid {p : Program} (hv : p.Valid) : p.interpret = .complete p.printed := by
  obtain ⟨t, ht, hrun⟩ := Interpreter.runTo_valid hv Transcript.shows_nil []
  rw [List.append_nil, List.nil_append, Interpreter.runTo_nil] at hrun
  have hstart : (Interpreter.ofProgram p).runTo {} = (t, .done) := hrun
  rw [interpret, hstart]
  simp only [ht.1, ht.2, List.nil_append, Execution.complete]

theorem interpret_firstInvalid {p : Program} {k : Nat} {e : InvalidStatement}
    (h : p.FirstInvalid k e) : p.interpret = .stopped (printed (p.take k)) e := by
  obtain ⟨s, rest, hp, hs, rfl, hv⟩ := h.split
  obtain ⟨t, ht, hrun⟩ := Interpreter.runTo_valid hv Transcript.shows_nil (s :: rest)
  rw [← hp, Interpreter.runTo_invalid _ _ _ hs] at hrun
  have hstart : (Interpreter.ofProgram p).runTo {} = (t, .failed ⟨s.line, s.span⟩) := hrun
  rw [interpret, hstart]
  simp only [ht.1, ht.2, List.nil_append, Execution.stopped]

end Program
end Linewise
