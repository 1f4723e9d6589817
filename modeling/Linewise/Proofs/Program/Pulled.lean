import Linewise.Interpreter
import Linewise.Proofs.Program.Invalid
import Mathlib.Logic.Function.Iterate
/-!
The interpreter pulled call by call. Every call up to the number of prints stops right behind its
print and has looked at nothing further; every later call gives the ending, and nothing changes any
more. One call may cross many statements, so its step is stated for the statements that lie behind
the interpreter and those that lie before it.
-/
namespace Linewise

namespace Program

/-- The statements before the first invalid one. -/
def executed (p : Program) : Program := p.takeWhile fun s => s.kind ≠ .invalid

/-- The statements behind the first invalid one, which nobody looks at. -/
def unread (p : Program) : Program := (p.dropWhile fun s => s.kind ≠ .invalid).drop 1

/-- How a run of the program ends. -/
def ending (p : Program) : Ending :=
  match p.firstInvalid? with
  | some e => .failed e
  | none => .done

def printCount (p : Program) : Nat := p.countP fun s => s.kind = .print

variable {front : Program} (rest : Program) {s : Statement}

theorem printCount_append (p q : Program) :
    (p ++ q : Program).printCount = p.printCount + q.printCount := List.countP_append

theorem printCount_concat_print (p : Program) (hs : s.kind = .print) :
    (p ++ [s] : Program).printCount = p.printCount + 1 := by
  simp [printCount, hs]

theorem printCount_concat_skip (p : Program) (hs : s.kind ≠ .print) :
    (p ++ [s] : Program).printCount = p.printCount := by
  simp [printCount, hs]

theorem valid_concat (hv : front.Valid) (hs : s.kind ≠ .invalid) :
    (front ++ [s] : Program).Valid :=
  List.forall_mem_append.mpr ⟨hv, List.forall_mem_singleton.mpr hs⟩

theorem executed_append (hv : front.Valid) :
    (front ++ rest : Program).executed = front ++ executed rest :=
  List.takeWhile_append_of_pos fun s hs => by simpa using hv s hs

theorem unread_append (hv : front.Valid) :
    (front ++ rest : Program).unread = unread rest := by
  rw [unread, List.dropWhile_append_of_pos fun s hs => by simpa using hv s hs]
  rfl

theorem executed_cons_invalid (hs : s.kind = .invalid) : executed (s :: rest) = [] := by
  simp [executed, hs]

theorem unread_cons_invalid (hs : s.kind = .invalid) : unread (s :: rest) = rest := by
  simp [unread, hs]

theorem ending_valid (hv : front.Valid) : front.ending = .done := by
  rw [ending, (firstInvalid?_eq_none_iff front).mpr hv]

theorem ending_invalid (hv : front.Valid) (hs : s.kind = .invalid) :
    (front ++ s :: rest : Program).ending = .failed ⟨s.line, s.span⟩ := by
  rw [ending, (firstInvalid?_eq_some_iff _ _).mpr ⟨_, firstInvalid_append hv hs⟩]

end Program

namespace Interpreter

/-- The interpreter of a program after a number of calls. -/
def after (p : Program) (calls : Nat) : Interpreter :=
  (fun it => it.next.2)^[calls] (ofProgram p)

theorem after_succ (p : Program) (n : Nat) : after p (n + 1) = (after p n).next.2 :=
  Function.iterate_succ_apply' _ n _

/-- The interpreter once the program has ended. -/
def atEnd (p : Program) : Interpreter := ⟨p.unread, p.executed.emitted, some p.ending⟩

/-- The call stops right behind the print that has `n` prints before it, and shows what is emitted
up to there. -/
def StopsAtPrint (p : Program) (n : Nat) (call : Step × Interpreter) : Prop :=
  ∃ (front rest : Program) (s : Statement), p = front ++ s :: rest ∧ front.Valid ∧
    s.kind = .print ∧ front.printCount = n ∧
      call = (.output front.emitted, ⟨rest, front.emitted, none⟩)

/-- The call gives the ending, since `n` prints are all that is executed. -/
def Ends (p : Program) (n : Nat) (call : Step × Interpreter) : Prop :=
  p.executed.printCount = n ∧ call = (.ended p.ending, atEnd p)

theorem advance_skip (done rest : Program) {s : Statement} (hprint : s.kind ≠ .print)
    (hinvalid : s.kind ≠ .invalid) :
    advance done.emitted (s :: rest) = advance (done ++ [s] : Program).emitted rest := by
  cases hk : s.kind with
  | comment => rw [Program.emitted_skip done (by simp [hk]), advance, hk]
  | emit => rw [Program.emitted_concat done hk, advance, hk]
  | print => exact absurd hk hprint
  | invalid => exact absurd hk hinvalid

/-- From between two statements a call goes on to the next print, or to the end if no print is left
that is executed. -/
theorem advance_between {done : Program} (hv : done.Valid) (rest : Program) :
    StopsAtPrint (done ++ rest) done.printCount (advance done.emitted rest) ∨
      Ends (done ++ rest) done.printCount (advance done.emitted rest) := by
  -- On the statements ahead. Those that print nothing go over to the statements behind.
  induction rest generalizing done with
  | nil =>
      right
      have hexecuted : (done ++ [] : Program).executed = done := by
        rw [Program.executed_append [] hv]
        exact List.append_nil done
      have hunread : (done ++ [] : Program).unread = [] := Program.unread_append [] hv
      refine ⟨by rw [hexecuted], ?_⟩
      rw [advance, atEnd, hexecuted, hunread, List.append_nil, Program.ending_valid hv]
  | cons s rest ih =>
      by_cases hprint : s.kind = .print
      · left
        exact ⟨done, rest, s, rfl, hv, hprint, rfl, by simp only [advance, hprint]⟩
      by_cases hinvalid : s.kind = .invalid
      · right
        have hexecuted : (done ++ s :: rest : Program).executed = done := by
          rw [Program.executed_append _ hv, Program.executed_cons_invalid rest hinvalid]
          exact List.append_nil done
        have hunread : (done ++ s :: rest : Program).unread = rest := by
          rw [Program.unread_append _ hv, Program.unread_cons_invalid rest hinvalid]
        refine ⟨by rw [hexecuted], ?_⟩
        rw [atEnd, hexecuted, hunread, Program.ending_invalid rest hv hinvalid]
        simp only [advance, hinvalid]
      · rw [advance_skip done rest hprint hinvalid, List.append_cons,
          ← Program.printCount_concat_skip done hprint]
        exact ih (Program.valid_concat hv hinvalid)

/-- The print that a call stops at is executed. -/
theorem StopsAtPrint.lt {p : Program} {n : Nat} {call : Step × Interpreter}
    (h : StopsAtPrint p n call) : n < p.executed.printCount := by
  obtain ⟨front, rest, s, rfl, hv, hs, rfl, _⟩ := h
  have hs' : s.kind ≠ .invalid := by simp [hs]
  rw [List.append_cons, Program.executed_append rest (Program.valid_concat hv hs'),
    Program.printCount_append, Program.printCount_concat_print front hs]
  exact Nat.lt_of_lt_of_le (Nat.lt_succ_self _) (Nat.le_add_right _ _)

/-- While executed prints are left there are as many behind the interpreter as there were calls. -/
theorem next_cases {p : Program} {n : Nat} (hn : n ≤ p.executed.printCount) :
    StopsAtPrint p n (after p n).next ∨ Ends p n (after p n).next := by
  induction n with
  | zero =>
      have hnil : Program.Valid [] := by simp [Program.Valid]
      exact advance_between hnil p
  | succ n ih =>
      rcases ih (Nat.le_of_succ_le hn) with hstop | ⟨hlast, _⟩
      · obtain ⟨front, rest, s, hp, hv, hs, hcount, hcall⟩ := hstop
        have hs' : s.kind ≠ .invalid := by simp [hs]
        have hnext := advance_between (Program.valid_concat hv hs') rest
        rw [← List.append_cons, ← hp, Program.printCount_concat_print front hs, hcount,
          Program.emitted_skip front (by simp [hs])] at hnext
        rw [after_succ, hcall]
        exact hnext
      · omega

theorem next_ended {p : Program} {n : Nat} (hn : p.executed.printCount ≤ n) :
    (after p n).next = (.ended p.ending, atEnd p) := by
  induction hn with
  | refl =>
      rcases next_cases (Nat.le_refl p.executed.printCount) with hstop | hend
      · exact absurd hstop.lt (Nat.lt_irrefl _)
      · exact hend.2
  | step _ ih =>
      rw [after_succ, ih]
      rfl

/-- The calls of the interpreter: a call for every print that is executed, which stops right there,
and from then on the ending. -/
theorem next_after (p : Program) (n : Nat) :
    if n < p.executed.printCount then StopsAtPrint p n (after p n).next
    else (after p n).next = (.ended p.ending, atEnd p) := by
  split
  · rename_i hn
    rcases next_cases (Nat.le_of_lt hn) with hstop | ⟨hlast, _⟩
    · exact hstop
    · omega
  · rename_i hn
    exact next_ended (Nat.le_of_not_lt hn)

end Interpreter
end Linewise
