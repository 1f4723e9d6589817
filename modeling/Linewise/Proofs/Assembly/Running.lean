import Linewise.Proofs.Assembly.Lowering
/-!
Running the calls of a lowered text. Every call finds the constant of its literal, so the calls by
name do what the calls by literal do, and these go through a listing as the executor does.
-/
namespace Linewise

/-- Makes a call with the literal itself, which needs no constant. -/
def Call.make (m : Machine) : Call → Machine
  | .append text => m.append text
  | .printBuffer => m.writeLine m.buffer
  | .writeLine text => m.writeLine text

/-- The literal of a call, if it has one, has a constant. -/
def Call.DefinedIn (constants : List Bytes) (call : Call) : Prop :=
  ∀ text, call.literal? = some text → text ∈ constants

namespace Assembly

theorem symbol_injective : Function.Injective symbol := by
  intro i j h
  exact Decimal.ofNat_injective (List.append_cancel_left h)

variable {constants : List Bytes}

section Reading

variable {r : AssemblyReading} (hr : r.constants = table constants)

include hr

theorem constant?_symbol {literal : Bytes} (h : literal ∈ constants) :
    r.constant? (symbol (constants.idxOf literal)) =
      some (constantOf literal (constants.idxOf literal)) := by
  have hlt : constants.idxOf literal < constants.length := List.idxOf_lt_length_of_mem h
  have hget : constants[constants.idxOf literal] = literal := List.getElem_idxOf hlt
  rw [AssemblyReading.constant?, hr, List.find?_eq_some_iff_getElem]
  refine ⟨by simp [constantOf], constants.idxOf literal, by simpa [table] using hlt, ?_, ?_⟩
  · simp [table, hget]
  · -- No constant before it has its name, since different positions are written differently.
    intro j hj
    have hne : symbol j ≠ symbol (constants.idxOf literal) := by
      intro heq
      have hindex := symbol_injective heq
      omega
    simpa [table, constantOf] using hne

/-- A call by name makes the same step as the call by literal. -/
theorem step_namedCall {call : Call} (h : call.DefinedIn constants) (m : Machine) :
    r.step m (namedCall constants call) = some (call.make m) := by
  cases call with
  | append text =>
      simp [AssemblyReading.step, namedCall, constant?_symbol hr (h text rfl), constantOf,
        Call.make]
  | printBuffer => rfl
  | writeLine text =>
      simp [AssemblyReading.step, namedCall, constant?_symbol hr (h text rfl), constantOf,
        Call.make]

/-- The constant of a call by name has the size and the number of bytes that the call counts. -/
theorem constant?_argument {call : Call} (h : call.DefinedIn constants) {name : Bytes}
    {count : Nat} (hargument : (namedCall constants call).argument? = some (name, count)) :
    ∃ c, r.constant? name = some c ∧ c.size = count ∧ c.bytes.length = count := by
  cases call with
  | append text =>
      obtain ⟨rfl, rfl⟩ := Prod.mk.inj (Option.some.inj hargument)
      exact ⟨_, constant?_symbol hr (h text rfl), rfl, rfl⟩
  | printBuffer => cases hargument
  | writeLine text =>
      obtain ⟨rfl, rfl⟩ := Prod.mk.inj (Option.some.inj hargument)
      exact ⟨_, constant?_symbol hr (h text rfl), rfl, rfl⟩

theorem foldlM_namedCall {calls : List Call} (h : ∀ call ∈ calls, call.DefinedIn constants)
    (m : Machine) :
    (calls.map (namedCall constants)).foldlM r.step m = some (calls.foldl Call.make m) := by
  induction calls generalizing m with
  | nil => rfl
  | cons call calls ih =>
      rw [List.forall_mem_cons] at h
      rw [List.map_cons, List.foldlM_cons, step_namedCall hr h.1]
      exact ih h.2 _

end Reading

theorem definedIn_constants {a : Assembly} {call : Call} (hcall : call ∈ a.calls) :
    call.DefinedIn a.constants := by
  intro literal hliteral
  rw [constants, List.mem_eraseDups, List.mem_filterMap]
  exact ⟨call, hcall, hliteral⟩

end Assembly

namespace Listing

def liveCalls (is : List Instr) : List Call :=
  (is.takeWhile fun i => i.op != .halt).filterMap fun i => Call.ofOp? i.op

theorem liveCalls_cons {i : Instr} (hi : i.op ≠ .halt) (is : List Instr) :
    liveCalls (i :: is) = (Call.ofOp? i.op).toList ++ liveCalls is := by
  rw [liveCalls, List.takeWhile_cons_of_pos (by simpa using hi), List.filterMap_cons]
  cases Call.ofOp? i.op with
  | none => rfl
  | some call => rfl

theorem liveCalls_halt {i : Instr} (hi : i.op = .halt) (is : List Instr) :
    liveCalls (i :: is) = [] := by
  rw [liveCalls, List.takeWhile_cons_of_neg (by simp [hi]), List.filterMap_nil]

theorem calls_ofListing (l : Listing) : (Assembly.ofListing l).calls = liveCalls l.instrs := by
  rw [Assembly.calls, Assembly.ofListing, List.filterMap_map]
  rfl

/-- The buffer is the executor's text and what is written is the stream of the values printed so
far. Only an empty append makes no call, and it changes neither. -/
theorem written_foldl_make (is : List Instr) {t : Transcript} {m : Machine}
    (h : m.written = Execution.stream t.values) :
    ((liveCalls is).foldl Call.make m).written =
      Execution.stream (executeFrom t m.buffer is).values := by
  have hadd (t : Transcript) (m : Machine) (value : Bytes)
      (h : m.written = Execution.stream t.values) :
      (m.writeLine value).written = Execution.stream (t.add value).values := by
    simp [Machine.writeLine, h, Execution.stream, Transcript.add, Transcript.values]
  induction is generalizing t m with
  | nil => exact h
  | cons i is ih =>
      cases hi : i.op with
      | append more =>
          rw [liveCalls_cons (by simp [hi]), executeFrom, hi]
          cases more with
          | nil =>
              -- No call is made, and the text has not grown.
              simpa [Call.ofOp?] using ih h
          | cons b more => exact ih (m := m.append (b :: more)) h
      | print =>
          rw [liveCalls_cons (by simp [hi]), executeFrom, hi]
          exact ih (hadd t m m.buffer h)
      | printLiteral value =>
          rw [liveCalls_cons (by simp [hi]), executeFrom, hi]
          exact ih (hadd t m value h)
      | halt =>
          rw [liveCalls_halt hi, executeFrom, hi]
          exact h

/-- Lowering a well-formed listing keeps what it prints: the calls of the text write what the
executor streams. Every call finds its constant, whose size is the call's count and the number of
its bytes. -/
theorem lower_preserves_output {l : Listing} (h : l.verify l.strictness = []) :
    ∃ text, l.lower {} = .ok text ∧
      (AssemblyReading.ofText text).run = some (Execution.stream l.execute.outputs) ∧
      ∀ call ∈ (AssemblyReading.ofText text).calls, ∀ name count,
        call.argument? = some (name, count) →
          ∃ c, (AssemblyReading.ofText text).constant? name = some c ∧
            c.size = count ∧ c.bytes.length = count := by
  let a := Assembly.ofListing l
  have htext : l.lower {} = .ok (({} : AssemblyHeader).write ++ a.code) := by
    simp [lower, h, a]
  have hdefined : ∀ call ∈ a.calls, call.DefinedIn a.constants :=
    fun _ hcall => Assembly.definedIn_constants hcall
  refine ⟨_, htext, ?_, ?_⟩
  · rw [Assembly.ofText_code, AssemblyReading.run, Assembly.foldlM_namedCall rfl hdefined,
      Option.map_some, calls_ofListing]
    exact congrArg some (written_foldl_make l.instrs (t := {}) (m := {}) rfl)
  · intro named hnamed name count hargument
    rw [Assembly.ofText_code] at hnamed ⊢
    obtain ⟨call, hcall, rfl⟩ := List.mem_map.mp hnamed
    exact Assembly.constant?_argument rfl (hdefined call hcall) hargument

theorem lower_preserves_output_of_repeated_literal :
    ∃ text, Listing.lower {} ⟨[⟨.append [0x22, 0x0A], 1⟩, ⟨.append [], 2⟩, ⟨.print, 3⟩,
        ⟨.printLiteral [0x22, 0x0A], 0⟩, ⟨.halt, 0⟩], false, {}⟩ = .ok text ∧
      (AssemblyReading.ofText text).run = some [0x22, 0x0A, 0x0A, 0x22, 0x0A, 0x0A] := by
  obtain ⟨text, htext, hrun, _⟩ := lower_preserves_output
    (l := ⟨[⟨.append [0x22, 0x0A], 1⟩, ⟨.append [], 2⟩, ⟨.print, 3⟩,
      ⟨.printLiteral [0x22, 0x0A], 0⟩, ⟨.halt, 0⟩], false, {}⟩) (by decide)
  exact ⟨text, htext, hrun⟩

end Listing
end Linewise
