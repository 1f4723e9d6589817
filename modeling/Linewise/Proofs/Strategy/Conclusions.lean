import Linewise.Proofs.Strategy.Series
/-!
How runs end. A run cannot start, is stopped by an invalid statement, prints to its end, makes no
artifact or hands one to its sink. Its result tells these apart, and so does whoever watches the
sink. Objects are the work of a code generator, about which only so much is assumed as its answers
say themselves; the tool has none.
-/
namespace Linewise

variable {σ : Type}

/-- Makes an object of an assembly text, with messages about it, or tells what prevents it. -/
abbrev Generator := CompileOptions → Bytes → Except (List Message) (List Message × Bytes)

namespace Generator

def absent : Generator := fun _ _ => .error [objectUnavailable]

/-- There are errors among the messages exactly if there is no object. -/
structure Honest (g : Generator) : Prop where
  made : ∀ options text messages object, g options text = .ok (messages, object) →
    ∀ m ∈ messages, m.isError = false
  failed : ∀ options text messages, g options text = .error messages →
    ∃ m ∈ messages, m.isError = true

theorem absent_honest : absent.Honest where
  made _ _ _ _ h := by cases h
  failed _ _ messages h := by
    obtain rfl : [objectUnavailable] = messages := Except.error.inj h
    exact ⟨objectUnavailable, List.mem_singleton_self _, rfl⟩

end Generator

/-! Compiling where there may be a code generator. -/
namespace Listing

variable (g : Generator) (options : CompileOptions) (l : Listing)

def artifactWith : Except (List Message) (List Message × Bytes) :=
  match options.artifact, l.lower { target := options.target } with
  | .object, .ok text => g options text
  | _, _ => (l.artifact options).map ([], ·)

def persistWith (sink : Sink σ) (s : σ) : RunResult × σ :=
  let misplaced := l.verify (if options.optimize then .optimized else .any)
  if misplaced.isEmpty then
    match l.artifactWith g options with
    | .error errors => ({ messages := l.notes options ++ errors }, s)
    | .ok (messages, bytes) => sink.keep options.artifact (l.notes options ++ messages) bytes s
  else ({ messages := misplaced.map (·.error) }, s)

end Listing

def Program.compileWith (g : Generator) (options : CompileOptions) (sink : Sink σ) (p : Program)
    (bag : Option Bag) (s : σ) : RunResult × Option Bag × σ :=
  let built := p.buildWith options.optimize options.warnDeadEmits bag
  match built.1 with
  | .error e => (.invalidAfter 0 e, built.2, s)
  | .ok l =>
    let persisted := l.persistWith g options sink s
    (persisted.1, built.2, persisted.2)

/-- Only a compilation that reaches its sink has anything to do with a code generator. -/
def Strategy.runWith (g : Generator) (strategy : Strategy) (options : CompileOptions)
    (ends : Endpoints σ) (p : Program) (s : σ) : Run σ :=
  match strategy, ends.sink with
  | .aheadOfTime, some sink =>
    let compiled := p.compileWith g options sink ends.bag s
    ⟨[], compiled.1, compiled.2.1, compiled.2.2⟩
  | _, _ => strategy.run options ends p s

namespace Listing

theorem artifactWith_absent (options : CompileOptions) (l : Listing) :
    l.artifactWith .absent options = (l.artifact options).map ([], ·) := by
  unfold artifactWith
  split
  · rename_i text hkind htext
    simp only [artifact, hkind, htext]
    rfl
  · rfl

theorem persistWith_absent (options : CompileOptions) (l : Listing) (sink : Sink σ) (s : σ) :
    l.persistWith .absent options sink s = l.persist options sink s := by
  unfold persistWith persist
  rw [artifactWith_absent]
  cases l.artifact options with
  | error errors => rfl
  | ok bytes =>
      simp only [Except.map, List.append_nil]
      rfl

end Listing

theorem Program.compileWith_absent (options : CompileOptions) (sink : Sink σ) (p : Program)
    (bag : Option Bag) (s : σ) :
    p.compileWith .absent options sink bag s = p.compile options sink bag s := by
  cases hbuilt : (p.buildWith options.optimize options.warnDeadEmits bag).1 with
  | error e => simp only [compileWith, compile, hbuilt]
  | ok l => simp only [compileWith, compile, hbuilt, Listing.persistWith_absent]

/-- Without a code generator a run is the run of the tool. -/
theorem Strategy.runWith_absent : @Strategy.runWith σ .absent = Strategy.run := by
  funext strategy options ends p s
  unfold runWith
  split
  · rename_i sink hsink
    simp only [run, hsink, Program.compileWith_absent]
  · rfl

/-- The endpoint that the strategy cannot do without is there. -/
def Strategy.Served (strategy : Strategy) (ends : Endpoints σ) : Prop :=
  match strategy with
  | .interpreter | .inMemory => ends.hasOutput = true
  | .aheadOfTime => ends.sink.isSome = true

/-- The endpoints with a note of every call that the sink is asked. -/
def Endpoints.logged (ends : Endpoints σ) : Endpoints (σ × List (Bytes × Reply)) :=
  ⟨ends.hasOutput, ends.sink.map (·.logged), ends.bag⟩

/-- The same run with a note of its calls. -/
def Run.noting (run : Run σ) (calls : List (Bytes × Reply)) : Run (σ × List (Bytes × Reply)) :=
  ⟨run.outputs, run.result, run.bag, (run.memory, calls)⟩

/-- The ways in which a run ends, each with the calls that the sink was asked. -/
inductive Conclusion (served : Prop) (sink : Option (Sink σ)) (p : Program) (s : σ) :
    Run σ → List (Bytes × Reply) → Prop where
  | unable {reason bag} : ¬ served → Conclusion served sink p s ⟨[], .unable reason, bag, s⟩ []
  | stopped {k e values bag} : served → p.FirstInvalid k e →
      Conclusion served sink p s
        ⟨values, .invalidAfter (UInt32.ofNat values.length) e, bag, s⟩ []
  | complete {values bag} : p.Valid →
      Conclusion served sink p s ⟨values, .success (UInt32.ofNat values.length), bag, s⟩ []
  | unmade {messages bag} : p.Valid → (∃ m ∈ messages, m.isError = true) →
      Conclusion served sink p s ⟨[], { messages := messages }, bag, s⟩ []
  | asked {asked artifact notes bytes bag} : p.Valid → sink = some asked →
      (∀ m ∈ notes, m.isError = false) →
      Conclusion served sink p s
        ⟨[], (asked.keep artifact notes bytes s).1, bag, (asked.persist bytes s).2⟩
        [(bytes, (asked.persist bytes s).1)]

namespace Listing

variable {g : Generator} {l : Listing}

theorem notes_info (options : CompileOptions) (l : Listing) :
    ∀ m ∈ l.notes options, m.isError = false := by
  intro m hm
  unfold notes at hm
  split at hm
  · obtain rfl := List.mem_singleton.mp hm
    rfl
  · cases hm

/-- What is made of an accepted listing comes with no errors, and what is not made with one. -/
theorem artifactWith_messages (hg : g.Honest) (h : l.Accepted) (options : CompileOptions) :
    (∀ messages bytes, l.artifactWith g options = .ok (messages, bytes) →
      ∀ m ∈ messages, m.isError = false) ∧
    ∀ messages, l.artifactWith g options = .error messages → ∃ m ∈ messages, m.isError = true := by
  obtain ⟨text, htext⟩ := h.lower { target := options.target }
  cases hkind : options.artifact with
  | listing => simp [artifactWith, artifact, hkind, Except.map]
  | assembly => simp [artifactWith, artifact, hkind, htext, Except.map]
  | object =>
      simp only [artifactWith, hkind, htext]
      exact ⟨hg.made _ _, hg.failed _ _⟩

end Listing

namespace Strategy

variable {g : Generator} {p : Program}

theorem runWith_firstInvalid {k : Nat} {e : InvalidStatement} (h : p.FirstInvalid k e)
    (options : CompileOptions) (hasOutput : Bool) (sink : Sink σ) (bag : Option Bag) (s : σ) :
    Strategy.runWith g .aheadOfTime options ⟨hasOutput, some sink, bag⟩ p s =
      ⟨[], .invalidAfter 0 e, bag, s⟩ := by
  simp only [runWith, Program.compileWith, Program.buildWith_firstInvalid h]

/-- Whatever the sink, a valid program is compiled to an accepted listing, from which an artifact is
made or not. -/
theorem runWith_valid (hv : p.Valid) (options : CompileOptions) (bag : Option Bag) :
    ∃ (l : Listing) (bag' : Option Bag), l.Accepted ∧
      ∀ {τ : Type} (hasOutput : Bool) (sink : Sink τ) (s : τ),
      Strategy.runWith g .aheadOfTime options ⟨hasOutput, some sink, bag⟩ p s =
        match l.artifactWith g options with
        | .error errors => ⟨[], { messages := l.notes options ++ errors }, bag', s⟩
        | .ok (messages, bytes) =>
          ⟨[], (sink.keep options.artifact (l.notes options ++ messages) bytes s).1, bag',
            (sink.persist bytes s).2⟩ := by
  obtain ⟨l, hl, hoptimized, haccepted⟩ :=
    Program.buildWith_accepted hv options.optimize options.warnDeadEmits bag
  have hverify : l.verify (if options.optimize then .optimized else .any) = [] := by
    rw [← hoptimized]
    exact haccepted
  refine ⟨l, (p.buildWith options.optimize options.warnDeadEmits bag).2, haccepted, ?_⟩
  intro τ hasOutput sink s
  simp only [runWith, Program.compileWith, hl, Listing.persistWith, hverify, List.isEmpty_nil,
    if_true]
  cases l.artifactWith g options with
  | error errors => rfl
  | ok made => simp only [Sink.keep_memory]

/-- Every run ends in one of these ways, and it does not go otherwise if its calls are noted. -/
theorem runWith_concludes (hg : g.Honest) (strategy : Strategy) (options : CompileOptions)
    (ends : Endpoints σ) (p : Program) (s : σ) :
    ∃ calls, Conclusion (strategy.Served ends) ends.sink p s
        (strategy.runWith g options ends p s) calls ∧
      strategy.runWith g options ends.logged p (s, []) =
        (strategy.runWith g options ends p s).noting calls := by
  obtain ⟨hasOutput, sink, bag⟩ := ends
  cases strategy with
  | interpreter =>
      cases hasOutput with
      | false => exact ⟨[], .unable (by simp [Served]), rfl⟩
      | true =>
          rcases p.valid_or_firstInvalid with hv | ⟨k, e, he⟩
          · simp only [runWith, run, Endpoints.logged, if_true, Program.interpret_valid hv]
            exact ⟨[], .complete hv, rfl⟩
          · simp only [runWith, run, Endpoints.logged, if_true, Program.interpret_firstInvalid he]
            exact ⟨[], .stopped rfl he, rfl⟩
  | inMemory =>
      cases hasOutput with
      | false => exact ⟨[], .unable (by simp [Served]), rfl⟩
      | true =>
          rcases p.valid_or_firstInvalid with hv | ⟨k, e, he⟩
          · simp only [runWith, run, Endpoints.logged, if_true, Program.buildAndRun_valid hv]
            exact ⟨[], .complete hv, rfl⟩
          · simp only [runWith, run, Endpoints.logged, if_true, Program.buildAndRun_firstInvalid he]
            exact ⟨[], .stopped rfl he, rfl⟩
  | aheadOfTime =>
      cases sink with
      | none => exact ⟨[], .unable (by simp [Served]), rfl⟩
      | some sink =>
          rcases p.valid_or_firstInvalid with hv | ⟨k, e, he⟩
          · obtain ⟨l, bag', haccepted, hrun⟩ := runWith_valid (g := g) hv options bag
            obtain ⟨hmade, hfailed⟩ := Listing.artifactWith_messages hg haccepted options
            have hnotes := l.notes_info options
            simp only [Endpoints.logged, Option.map_some, hrun]
            cases hartifact : l.artifactWith g options with
            | error errors =>
                obtain ⟨m, hm, herror⟩ := hfailed errors hartifact
                exact ⟨[], .unmade hv ⟨m, List.mem_append_right _ hm, herror⟩, rfl⟩
            | ok made =>
                have hinfo : ∀ m ∈ l.notes options ++ made.1, m.isError = false := by
                  intro m hm
                  exact (List.mem_append.mp hm).elim (hnotes m) (hmade _ _ hartifact m)
                refine ⟨_, .asked hv rfl hinfo, ?_⟩
                simp only [Sink.keep_logged]
                rfl
          · simp only [Endpoints.logged, Option.map_some, runWith_firstInvalid he]
            exact ⟨[], .stopped rfl he, rfl⟩

end Strategy

/-- The result of a run tells how it ended. `served` says that the run could start, `outputs` are
the values that it printed, and `calls` is what it asked its sink and what it was answered. -/
structure RunResult.Disciplined (served : Prop) (p : Program) (outputs : List Bytes)
    (calls : List (Bytes × Reply)) (r : RunResult) : Prop where
  ok : r.ok = true →
    (∀ m ∈ r.messages, m.isError = false) ∧ r.invalid = none ∧ r.persistFailure = none
  failed : r.ok = false → ∃ m ∈ r.messages, m.isError = true
  invalid_iff : ∀ e, r.invalid = some e ↔ served ∧ ∃ k, p.FirstInvalid k e
  invalid_isSome : r.invalid.isSome = true ↔ served ∧ ∃ s ∈ p, s.kind = .invalid
  persistFailure_iff : ∀ f,
    r.persistFailure = some f ↔ ∃ bytes, (bytes, Reply.refused (some f)) ∈ calls
  exclusive : r.invalid = none ∨ r.persistFailure = none
  outputs_eq : r.outputs = UInt32.ofNat outputs.length

theorem Conclusion.disciplined {served : Prop} {sink : Option (Sink σ)} {p : Program} {s : σ}
    {run : Run σ} {calls : List (Bytes × Reply)} (h : Conclusion served sink p s run calls) :
    run.result.Disciplined served p run.outputs calls := by
  cases h with
  | unable hserved =>
      exact
        { ok := fun h => by cases h
          failed := fun _ => ⟨_, List.mem_singleton_self _, rfl⟩
          invalid_iff := by simp [RunResult.unable, hserved]
          invalid_isSome := by simp [RunResult.unable, hserved]
          persistFailure_iff := by simp [RunResult.unable]
          exclusive := .inl rfl
          outputs_eq := rfl }
  | stopped hserved he =>
      refine
        { ok := fun h => by cases h
          failed := fun _ => ⟨_, List.mem_singleton_self _, rfl⟩
          invalid_iff := ?_
          invalid_isSome := iff_of_true rfl ⟨hserved, he.mem⟩
          persistFailure_iff := by simp [RunResult.invalidAfter]
          exclusive := .inr rfl
          outputs_eq := rfl }
      intro e'
      constructor
      · intro hsome
        obtain rfl := Option.some.inj hsome
        exact ⟨hserved, _, he⟩
      · rintro ⟨-, k', he'⟩
        rw [he'.unique he]
        rfl
  | complete hv =>
      exact
        { ok := fun _ => ⟨fun _ hm => absurd hm List.not_mem_nil, rfl, rfl⟩
          failed := fun h => by cases h
          invalid_iff := by simp [RunResult.success, hv.no_firstInvalid]
          invalid_isSome := by simp [RunResult.success, hv.no_invalid]
          persistFailure_iff := by simp [RunResult.success]
          exclusive := .inl rfl
          outputs_eq := rfl }
  | unmade hv hmessages =>
      exact
        { ok := fun h => by cases h
          failed := fun _ => hmessages
          invalid_iff := by simp [hv.no_firstInvalid]
          invalid_isSome := by simp [hv.no_invalid]
          persistFailure_iff := by simp
          exclusive := .inl rfl
          outputs_eq := rfl }
  | @asked asked artifact notes bytes _ hv _ hnotes =>
      -- The result says neither more nor less than the answer of the sink.
      cases hreply : (asked.persist bytes s).1 with
      | kept =>
          have hkeep : (asked.keep artifact notes bytes s).1 =
              { ok := true
                messages := notes ++
                  [.info (utf8 "wrote " ++ artifact.title ++ utf8 " to " ++ asked.target)] } := by
            simp only [Sink.keep, hreply]
          rw [hkeep]
          refine
            { ok := fun _ => ⟨?_, rfl, rfl⟩
              failed := fun h => by cases h
              invalid_iff := by simp [hv.no_firstInvalid]
              invalid_isSome := by simp [hv.no_invalid]
              persistFailure_iff := by simp
              exclusive := .inl rfl
              outputs_eq := rfl }
          intro m hm
          rcases List.mem_append.mp hm with hnote | hlast
          · exact hnotes m hnote
          · obtain rfl := List.mem_singleton.mp hlast
            rfl
      | refused failure =>
          have hkeep : (asked.keep artifact notes bytes s).1 =
              { persistFailure := failure
                messages := notes ++
                  [.error ((failure.map (·.describe)).getD (utf8 "persist failed"))] } := by
            simp only [Sink.keep, hreply]
          rw [hkeep]
          exact
            { ok := fun h => by cases h
              failed := fun _ => ⟨_, List.mem_append_right _ (List.mem_singleton_self _), rfl⟩
              invalid_iff := by simp [hv.no_firstInvalid]
              invalid_isSome := by simp [hv.no_invalid]
              persistFailure_iff := by simpa using fun f => eq_comm
              exclusive := .inl rfl
              outputs_eq := rfl }

/-- Whatever makes the objects and whatever the sink answers, the result of a run tells how it
ended, and it does not go otherwise if the calls of its sink are noted. -/
theorem Strategy.result_disciplined :
    Generator.absent.Honest ∧ @Strategy.runWith σ .absent = Strategy.run ∧
      ∀ g : Generator, g.Honest → ∀ (strategy : Strategy) (options : CompileOptions)
        (ends : Endpoints σ) (p : Program) (s : σ),
        let run := strategy.runWith g options ends p s
        ∃ calls, strategy.runWith g options ends.logged p (s, []) = run.noting calls ∧
          run.result.Disciplined (strategy.Served ends) p run.outputs calls := by
  refine ⟨Generator.absent_honest, Strategy.runWith_absent, ?_⟩
  intro g hg strategy options ends p s run
  obtain ⟨calls, hconclusion, hlogged⟩ := runWith_concludes hg strategy options ends p s
  exact ⟨calls, hlogged, hconclusion.disciplined⟩

theorem Strategy.result_disciplined_at_refusing_sink :
    let failure : PersistFailure := ⟨utf8 "out.qir", utf8 "No space left on device"⟩
    let run := Strategy.runWith .absent .aheadOfTime { artifact := .assembly }
      ⟨false, some (Sink.refusing (some failure)), none⟩ (Program.ofLines [utf8 "a", utf8 "p"]) 0
    run.result.persistFailure = some failure ∧ (∃ m ∈ run.result.messages, m.isError = true) ∧
      run.memory = 1 := by
  intro failure run
  obtain ⟨calls, hlogged, h⟩ := (@Strategy.result_disciplined UInt32).2.2 .absent
    Generator.absent_honest .aheadOfTime { artifact := .assembly }
    ⟨false, some (Sink.refusing (some failure)), none⟩ (Program.ofLines [utf8 "a", utf8 "p"]) 0
  have hmemory : run.memory = 1 := by decide +kernel
  have hfailure : run.result.persistFailure = some failure := by decide +kernel
  refine ⟨hfailure, h.failed ?_, hmemory⟩
  decide +kernel

end Linewise
