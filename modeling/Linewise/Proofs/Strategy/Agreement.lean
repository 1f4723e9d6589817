import Linewise.Proofs.Listing.RoundTrip
import Linewise.Proofs.Program.Built
/-!
The strategies agree. On a program without invalid statements every way to run it prints what the
program prints, whether it is interpreted, executed from either builder's listing, or executed from
a listing that went through its text.
-/
namespace Linewise

namespace Transcript

theorem foldl_add (values : List Bytes) (t : Transcript) :
    (values.foldl add t).values = t.values ++ values ∧
      (values.foldl add t).count = t.count + UInt32.ofNat values.length := by
  induction values generalizing t with
  | nil => simp
  | cons value values ih =>
      obtain ⟨hvalues, hcount⟩ := ih (t.add value)
      have hadd : (t.add value).count = t.count + 1 := rfl
      refine ⟨?_, ?_⟩
      · rw [List.foldl_cons, hvalues, values_add, List.append_assoc, List.singleton_append]
      · rw [List.foldl_cons, hcount, hadd, List.length_cons, UInt32.ofNat_add, UInt32.add_assoc,
          UInt32.add_comm 1]
        rfl

end Transcript

namespace Listing

/-- The executor goes through the instructions of a program as the program goes: its text is what
the statements behind it emit, and its transcript is what they print. -/
theorem executeFrom_instrs (p : Program) {done : Program} {t : Transcript} (ht : t.Shows done) :
    (executeFrom t done.emitted (p.filterMap (·.instr?))).Shows (done ++ p) := by
  induction p generalizing done t with
  | nil => simpa [executeFrom] using ht
  | cons s p ih =>
      rw [List.append_cons done s p]
      cases hk : s.kind with
      | comment | invalid =>
          have hinstr : s.instr? = none := by simp only [Statement.instr?, hk]
          have hp : s.kind ≠ .print := by simp [hk]
          rw [List.filterMap_cons_none hinstr, ← Program.emitted_skip done (s := s) (by simp [hk])]
          exact ih (ht.skip hp)
      | emit =>
          have hinstr : s.instr? = some ⟨.append s.payload, s.line⟩ := by
            simp only [Statement.instr?, hk]
          have hp : s.kind ≠ .print := by simp [hk]
          rw [List.filterMap_cons_some hinstr]
          simp only [executeFrom]
          rw [← Program.emitted_concat done hk]
          exact ih (ht.skip hp)
      | print =>
          have hinstr : s.instr? = some ⟨.print, s.line⟩ := by simp only [Statement.instr?, hk]
          have hnext := ih (ht.print hk)
          rw [Program.emitted_skip done (s := s) (by simp [hk])] at hnext
          rw [List.filterMap_cons_some hinstr]
          exact hnext

theorem execute_of_instrs {l : Listing} {p : Program} (h : l.instrs = p.filterMap (·.instr?)) :
    l.execute = .complete p.printed := by
  obtain ⟨hvalues, hcount⟩ := executeFrom_instrs p Transcript.shows_nil
  have hrun : executeFrom {} [] l.instrs =
      executeFrom {} (Program.emitted []) (p.filterMap (·.instr?)) := congrArg (executeFrom {} []) h
  rw [execute, hrun]
  simp only [hvalues, hcount, List.nil_append, Execution.complete]

theorem execute_of_literals {l : Listing} {values : List Bytes}
    (h : l.instrs.map (·.op) = values.map .printLiteral) : l.execute = .complete values := by
  obtain ⟨hvalues, hcount⟩ := Transcript.foldl_add values {}
  rw [execute, executeFrom_literals h]
  simp only [hvalues, hcount, Execution.complete]
  simp [Transcript.values]

/-- The listing prints these values, and so does every listing read from its text. -/
def Yields (l : Listing) (values : List Bytes) : Prop :=
  l.execute = .complete values ∧
    ∀ file bag, ∃ m, Listing.read l.write file bag = (some m, bag) ∧ m.execute = .complete values

theorem yields_of_execute {l : Listing} {values : List Bytes} (h : l.execute = .complete values) :
    l.Yields values :=
  ⟨h, fun file bag => ⟨l.normal, l.read_write file bag, l.execute_normal.trans h⟩⟩

end Listing

namespace Program

theorem build_yields {p : Program} (hv : p.Valid) :
    ∃ l, p.build = .ok l ∧ l.Yields p.printed := by
  obtain ⟨l, hl, hinstrs⟩ := build_valid hv
  exact ⟨l, hl, Listing.yields_of_execute (Listing.execute_of_instrs hinstrs)⟩

theorem buildOptimized_yields {p : Program} (hv : p.Valid) (warn : Bool) (bag : Option Bag) :
    ∃ l, (p.buildOptimized warn bag).1 = .ok l ∧ l.Yields p.printed := by
  obtain ⟨l, hl, hliterals⟩ := buildOptimized_valid hv warn bag
  exact ⟨l, hl, Listing.yields_of_execute (Listing.execute_of_literals hliterals)⟩

theorem buildAndRun_valid {p : Program} (hv : p.Valid) (optimize : Bool) :
    p.buildAndRun optimize = .complete p.printed := by
  unfold buildAndRun buildWith
  cases optimize with
  | false =>
      obtain ⟨l, hl, hyields⟩ := build_yields hv
      simp only [Bool.false_eq_true, if_false, hl]
      exact hyields.1
  | true =>
      obtain ⟨l, hl, hyields⟩ := buildOptimized_yields hv false none
      simp only [if_true, hl]
      exact hyields.1

/-- Without invalid statements every strategy prints the program's values, one for each print, and
reports success and their count. -/
theorem strategies_agree {p : Program} (hv : p.Valid) :
    (p.printed.length = p.countP fun s => s.kind = .print) ∧
      p.interpret = .complete p.printed ∧
      (∃ l, p.build = .ok l ∧ l.Yields p.printed) ∧
      (∀ warn bag, ∃ l, (p.buildOptimized warn bag).1 = .ok l ∧ l.Yields p.printed) ∧
      ∀ optimize, p.buildAndRun optimize = .complete p.printed :=
  ⟨p.length_printed, interpret_valid hv, build_yields hv, buildOptimized_yields hv,
    buildAndRun_valid hv⟩

theorem strategies_agree_of_quoted_lines :
    Valid (ofLines [utf8 "a;\"", utf8 "p", utf8 "# note", utf8 "b\\", utf8 "p", utf8 "c"]) ∧
      interpret (ofLines [utf8 "a;\"", utf8 "p", utf8 "# note", utf8 "b\\", utf8 "p", utf8 "c"]) =
        .complete [utf8 "a;\"", utf8 "a;\"b\\"] :=
  have hv : Valid (ofLines
      [utf8 "a;\"", utf8 "p", utf8 "# note", utf8 "b\\", utf8 "p", utf8 "c"]) := by decide
  ⟨hv, (strategies_agree hv).2.1⟩

end Program
end Linewise
