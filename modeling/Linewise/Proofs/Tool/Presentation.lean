import Linewise.Proofs.Strategy.Conclusions
import Linewise.Proofs.Tool.Listings
/-!
Presentation. In one mode, on one content and under one newline rule a run exits, prints and hands
out the same whatever else it is told. Languages, dumps and warnings only go to the error stream; a
level, a target and a processor are for objects; and in memory both builders print the same.
-/
namespace Linewise

variable {σ τ : Type}

theorem Program.buildAndRun_congr (p : Program) (optimize optimize' : Bool) :
    p.buildAndRun optimize = p.buildAndRun optimize' := by
  rcases p.valid_or_firstInvalid with hv | ⟨k, e, he⟩
  · rw [buildAndRun_valid hv, buildAndRun_valid hv]
  · rw [buildAndRun_firstInvalid he, buildAndRun_firstInvalid he]

/-- What a run leaves is what its sink has made of the calls, one after the other. -/
theorem Conclusion.memory {served : Prop} {sink : Option (Sink σ)} {p : Program} {s : σ}
    {run : Run σ} {calls : List (Bytes × Reply)} (h : Conclusion served sink p s run calls)
    (only : Sink σ) (honly : ∀ asked, sink = some asked → asked = only) :
    run.memory = (calls.map (·.1)).foldl (fun m bytes => (only.persist bytes m).2) s := by
  cases h with
  | unable | stopped | complete | unmade => rfl
  | asked _ hsink _ =>
      obtain rfl := honly _ hsink
      rfl

/-- What a run with noted calls shows to those who read no messages: whether it ended well, what it
printed, and what it handed to its sink. -/
def Run.results (run : Run (σ × List (Bytes × Reply))) : Bool × List Bytes × List Bytes :=
  (run.result.ok, run.outputs, run.memory.2.map (·.1))

namespace Job

variable {job job' : Job}

theorem Makes.unique (hbuilt : job.built = job'.built) (hlisting : job.options.artifact = .listing)
    (hlisting' : job'.options.artifact = .listing) {bytes bytes' : Bytes} (h : job.Makes bytes)
    (h' : job'.Makes bytes') : bytes = bytes' := by
  cases h with
  | assembly kind _ _ => exact absurd (hlisting.symm.trans kind) (by decide)
  | listing _ hl =>
      cases h' with
      | assembly kind _ _ => exact absurd (hlisting'.symm.trans kind) (by decide)
      | listing _ hl' => rw [Except.ok.inj (hl.symm.trans (hbuilt.trans hl'))]

theorem run_results_congr (hprogram : job.program = job'.program)
    (hendpoint : job.hasSink = job'.hasSink)
    (hoptimize : job.options.optimize = job'.options.optimize)
    (hlisting : job.options.artifact = .listing) (hlisting' : job'.options.artifact = .listing)
    {sink : Sink σ} {sink' : Sink τ} {s : σ} {s' : τ}
    (hanswer : ∀ bytes, (sink.persist bytes s).1 = .kept ↔ (sink'.persist bytes s').1 = .kept)
    (bag bag' : Bag) :
    (job.run sink.logged (s, []) bag).results = (job'.run sink'.logged (s', []) bag').results := by
  have hbuilt : job.built = job'.built := by
    rw [built, built, hprogram, hoptimize]
    exact Program.buildWith_fst_congr _ _ _ _ _ _
  have hcompiles : job.Compiles ↔ job'.Compiles := by
    simp only [Compiles, hprogram, hendpoint, hlisting, hlisting']
  by_cases h : job.Compiles
  · obtain ⟨bytes, notes, hmakes, hrun⟩ := run_makes h bag
    obtain ⟨bytes', notes', hmakes', hrun'⟩ := run_makes (hcompiles.mp h) bag'
    obtain rfl := hmakes.unique hbuilt hlisting hlisting' hmakes'
    have hok : (sink.keep job.options.artifact notes bytes s).1.ok =
        (sink'.keep job'.options.artifact notes' bytes s').1.ok := by
      rw [Bool.eq_iff_iff, Sink.keep_ok, Sink.keep_ok]
      exact hanswer bytes
    simp only [hrun, hrun', Sink.keep_logged, Run.results, hok]
    rfl
  · obtain ⟨result, hfailed, hrun⟩ := run_leaves h bag
    obtain ⟨result', hfailed', hrun'⟩ := run_leaves (hcompiles.not.mp h) bag'
    rw [hrun, hrun', Run.results, Run.results, hfailed, hfailed']

end Job

namespace Tool

/-- What the strategy of a run may use. -/
def endpoints (h : Host) (o : Options) : Endpoints Disk where
  hasOutput := true
  sink := if strategy o.mode = .aheadOfTime then some (Disk.sink h.tag o.output) else none
  bag := some {}

/-- The run of the mode's strategy on a program, with a note of what it asks its sink. -/
def notedRun (h : Host) (o : Options) (p : Program) : Run (Disk × List (Bytes × Reply)) :=
  (strategy o.mode).run (settings h o).compile (endpoints h o).logged p (h.disk, [])

/-- What a run of the tool hands to the sink at its output path. -/
def handed (h : Host) (o : Options) : List Bytes :=
  match h.disk.openFile o.input with
  | .error _ => []
  | .ok content =>
    if o.mode = .run then []
    else
      (notedRun h o (Program.ofSource content 0 (settings h o).newline)).memory.2.map (·.1)

/-- Two runs in the same mode on the same content. A source has its lines from the same newline
rule; a compilation makes a listing, and the sinks accept the same. -/
structure Alike (h : Host) (o : Options) (h' : Host) (o' : Options) : Prop where
  mode : o.mode = o'.mode
  content : (h.disk.openFile o.input).toOption = (h'.disk.openFile o'.input).toOption
  newline : o.mode ≠ .run → (settings h o).newline = (settings h' o').newline
  listing : o.mode.compiles = true →
    (settings h o).compile.artifact = .listing ∧ (settings h' o').compile.artifact = .listing
  answer : o.mode.compiles = true → ∀ bytes,
    (h.disk.persist h.tag o.output bytes).1 = .kept ↔
      (h'.disk.persist h'.tag o'.output bytes).1 = .kept

variable {h h' : Host} {o o' : Options}

/-- Runs on the same disk with the same paths are alike, whatever their environments. -/
theorem alike_of_same_disk {rule : Newline} (hdisk : h.disk = h'.disk) (htag : h.tag = h'.tag)
    (hmode : o.mode = o'.mode) (hinput : o.input = o'.input) (houtput : o.output = o'.output)
    (hnewline : (settings h o).newline = rule ∧ (settings h' o').newline = rule)
    (hlisting : (settings h o).compile.artifact = .listing ∧
      (settings h' o').compile.artifact = .listing) : Alike h o h' o' where
  mode := hmode
  content := by rw [hdisk, hinput]
  newline _ := hnewline.1.trans hnewline.2.symm
  listing _ := hlisting
  answer _ bytes := by rw [hdisk, htag, houtput]

theorem compiles_of_strategy {mode : Mode} (hs : strategy mode = .aheadOfTime) :
    mode.compiles = true := by
  cases mode with
  | compile | compileOptimized => rfl
  | usage | version | interpret | jit | run => cases hs

/-- Whether a compilation folds emits is up to its mode alone. -/
theorem settings_optimize (hc : o.mode.compiles = true) :
    (settings h o).compile.optimize = decide (o.mode = .compileOptimized) := by
  have hof (e : Settings.Effective) :
      (RunSettings.of o e h.env).compile.optimize = decide (o.mode = .compileOptimized) := by
    simp only [RunSettings.of, RunSettings.optimizes]
    cases hm : o.mode with
    | compile | compileOptimized => rfl
    | usage | version | interpret | jit | run =>
        rw [hm] at hc
        cases hc
  unfold settings RunSettings.load
  split
  · exact hof _
  · exact hof _

theorem notedRun_eq (h : Host) (o : Options) (p : Program) :
    ∃ calls, notedRun h o p = (sourceRun h o p).noting calls ∧
      (sourceRun h o p).memory =
        (calls.map (·.1)).foldl (fun d bytes => (d.persist h.tag o.output bytes).2) h.disk := by
  obtain ⟨calls, hconclusion, hnoted⟩ := Strategy.runWith_concludes Generator.absent_honest
    (strategy o.mode) (settings h o).compile (endpoints h o) p h.disk
  rw [Strategy.runWith_absent] at hconclusion
  rw [Strategy.runWith_absent, Strategy.runWith_absent] at hnoted
  refine ⟨calls, hnoted, hconclusion.memory (Disk.sink h.tag o.output) ?_⟩
  intro asked hasked
  unfold endpoints at hasked
  split at hasked
  · exact (Option.some.inj hasked).symm
  · cases hasked

theorem runInput_disk (h : Host) (o : Options) :
    (runInput h o).disk =
      (handed h o).foldl (fun d bytes => (d.persist h.tag o.output bytes).2) h.disk := by
  cases hopen : h.disk.openFile o.input with
  | error reason => simp only [runInput, handed, hopen, List.foldl_nil]
  | ok content =>
      by_cases hmode : o.mode = .run
      · simp only [runInput, handed, hopen, hmode, if_true, List.foldl_nil]
      · obtain ⟨calls, hnoted, hmemory⟩ :=
          notedRun_eq h o (Program.ofSource content 0 (settings h o).newline)
        simp only [runInput_source hmode hopen, handed, hopen, if_neg hmode, hnoted]
        exact hmemory

namespace Alike

theorem notedRun_results (ha : Alike h o h' o') (p : Program) :
    (notedRun h o p).results = (notedRun h' o' p).results := by
  unfold notedRun endpoints
  rw [← ha.mode]
  cases hs : strategy o.mode with
  | interpreter => rfl
  | inMemory =>
      simp only [Strategy.run, Endpoints.logged, if_true]
      rw [p.buildAndRun_congr _ (settings h' o').compile.optimize]
      rfl
  | aheadOfTime =>
      have hc := compiles_of_strategy hs
      have hoptimize : (settings h o).compile.optimize = (settings h' o').compile.optimize := by
        rw [settings_optimize hc, settings_optimize (ha.mode ▸ hc), ha.mode]
      let job : Job := ⟨p, (settings h o).compile, true, true, true⟩
      let job' : Job := ⟨p, (settings h' o').compile, true, true, true⟩
      have hprogram : job.program = job'.program := rfl
      have hanswer : ∀ bytes, ((Disk.sink h.tag o.output).persist bytes h.disk).1 = .kept ↔
          ((Disk.sink h'.tag o'.output).persist bytes h'.disk).1 = .kept := ha.answer hc
      exact Job.run_results_congr hprogram rfl hoptimize (ha.listing hc).1 (ha.listing hc).2
        hanswer {} {}

theorem exit_stdout_handed (ha : Alike h o h' o') :
    (runInput h o).exit = (runInput h' o').exit ∧
      (runInput h o).stdout = (runInput h' o').stdout ∧ handed h o = handed h' o' := by
  have hcontent := ha.content
  cases hopen : h.disk.openFile o.input with
  | error reason =>
      cases hopen' : h'.disk.openFile o'.input with
      | ok content => simp [hopen, hopen', Except.toOption] at hcontent
      | error reason' => simp only [runInput, handed, hopen, hopen', and_self]
  | ok content =>
      cases hopen' : h'.disk.openFile o'.input with
      | error reason => simp [hopen, hopen', Except.toOption] at hcontent
      | ok content' =>
          obtain rfl : content = content' := by
            simpa [hopen, hopen', Except.toOption] using hcontent
          by_cases hmode : o.mode = .run
          · have hmode' : o'.mode = .run := ha.mode ▸ hmode
            obtain ⟨hexit, hstdout⟩ := runInput_congr ⟨hmode, hopen⟩ ⟨hmode', hopen'⟩ rfl
            refine ⟨hexit, hstdout, ?_⟩
            simp only [handed, hopen, hopen', hmode, hmode', if_true]
          · have hmode' : o'.mode ≠ .run := ha.mode ▸ hmode
            have hnewline := ha.newline hmode
            let p := Program.ofSource content 0 (settings h o).newline
            obtain ⟨calls, hnoted, _⟩ := notedRun_eq h o p
            obtain ⟨calls', hnoted', _⟩ := notedRun_eq h' o' p
            have hresults := ha.notedRun_results p
            rw [hnoted, hnoted'] at hresults
            simp only [Run.results, Run.noting, Prod.mk.injEq] at hresults
            obtain ⟨hok, houtputs, hcalls⟩ := hresults
            simp only [runInput_source hmode hopen, runInput_source hmode' hopen', handed, hopen,
              hopen', if_neg hmode, if_neg hmode', ← hnewline]
            refine ⟨by rw [hok], by rw [houtputs], ?_⟩
            rw [hnoted, hnoted']
            exact hcalls

end Alike

/-- Runs that are alike exit, print and hand out the same. What a run hands out is what becomes of
the files. -/
theorem presentation_changes_no_results :
    (∀ h o, (runInput h o).disk =
      (handed h o).foldl (fun d bytes => (d.persist h.tag o.output bytes).2) h.disk) ∧
      ∀ h o h' o', Alike h o h' o' →
        (runInput h o).exit = (runInput h' o').exit ∧
          (runInput h o).stdout = (runInput h' o').stdout ∧ handed h o = handed h' o' := by
  refine ⟨runInput_disk, ?_⟩
  intro h o h' o' ha
  exact ha.exit_stdout_handed

/-- One run is told all that it can be told, in its environment, in a configuration and on its
command line, and the other nothing. -/
theorem presentation_changes_no_results_in_memory :
    let disk : Disk :=
      ⟨⟨[([utf8 "a"], .file (utf8 "a\np\n")),
        ([utf8 "c"], .file (utf8 "[jit]\noptimize = true\n"))]⟩, []⟩
    let h : Host := ⟨disk, [], utf8 "1"⟩
    let h' : Host := ⟨disk, [(utf8 "QUILL_DIAG_LANG", utf8 "ko")], utf8 "1"⟩
    let o : Options := { mode := .jit, input := utf8 "a", noConfig := true }
    let o' : Options :=
      { mode := .jit, input := utf8 "a", context := some 7, warnDeadEmits := some true
        dump := .listing, verbose := true, optLevel := some 3, target := some (utf8 "t")
        cpu := some (utf8 "c"), config := some (utf8 "c") }
    (settings h o).compile.optimize = false ∧ (settings h' o').compile.optimize = true ∧
      (settings h' o').language = .korean ∧
      (runInput h o).exit = (runInput h' o').exit ∧
      (runInput h o).stdout = (runInput h' o').stdout ∧ handed h o = handed h' o' := by
  intro disk h h' o o'
  have ha : Alike h o h' o' := by
    refine alike_of_same_disk rfl rfl rfl rfl rfl ⟨rfl, ?_⟩ ⟨rfl, ?_⟩
    · decide +kernel
    · decide +kernel
  refine ⟨rfl, ?_, ?_, presentation_changes_no_results.2 h o h' o' ha⟩
  · decide +kernel
  · decide +kernel

end Tool
end Linewise
