import Linewise.Proofs.Files.Persist
import Linewise.Proofs.Source.Starts
import Linewise.Proofs.Strategy.Series
import Linewise.Tool
/-!
The modes of the tool agree on a source. Each mode reads the same program and leaves the rest to its
strategy, so they all succeed or all fail, and a compiled listing that is run later shows what the
interpreter shows at once.
-/
namespace Linewise

namespace Tool

def settings (h : Host) (o : Options) : RunSettings := (RunSettings.load h.disk h.env o).1

/-- The run of the mode's strategy on a program. -/
def sourceRun (h : Host) (o : Options) (p : Program) : Run Disk :=
  (strategy o.mode).run (settings h o).compile
    { hasOutput := true
      sink := if strategy o.mode = .aheadOfTime then some (Disk.sink h.tag o.output) else none
      bag := some {} } p h.disk

def sourceFile (h : Host) (o : Options) (content : Bytes) (rule : Newline) : SourceFile :=
  ⟨h.disk.normalize o.input, content, rule⟩

/-- What is said before the strategy has its say: notes on the command line and the configuration,
warnings about the lines, and a dump if one is wanted. -/
def preface (h : Host) (o : Options) (content : Bytes) (rule : Newline) : Bytes :=
  o.warnings.flatMap (note "warning") ++ (RunSettings.load h.disk h.env o).2 ++
    display (settings h o) [sourceFile h o content rule]
      ((Diagnostic.ofSource content 0 rule).filter fun d => d.severity = .warning) ++
    dump o (settings h o) (Program.ofSource content 0 rule)

variable {h : Host} {o : Options} {content : Bytes} {rule : Newline}

/-- What a run shows and leaves is what its strategy says about the program of the source. -/
theorem runInput_source (hmode : o.mode ≠ .run) (hcontent : h.disk.openFile o.input = .ok content) :
    let rule := (settings h o).newline
    let run := sourceRun h o (Program.ofSource content 0 rule)
    let m := [sourceFile h o content rule]
    runInput h o =
      { exit := if run.result.ok then 0 else 1
        stdout := Execution.stream run.outputs
        stderr := preface h o content rule ++
          (display (settings h o) m (run.bag.getD {}).diagnostics ++
            report o (settings h o) m run.result)
        disk := run.memory } := by
  simp only [runInput, hcontent, if_neg hmode, runSource, SourceMap.add, Program.read, preface,
    List.append_assoc]
  rfl

theorem sourceMode_ne_run (hmode : o.mode ∈ [Mode.interpret, .jit, .compile, .compileOptimized]) :
    o.mode ≠ .run := by
  intro hrun
  exact absurd hmode (by rw [hrun]; decide)

theorem strategy_of_compiles (hc : o.mode.compiles = true) : strategy o.mode = .aheadOfTime := by
  cases hm : o.mode with
  | compile | compileOptimized => rfl
  | usage | version | interpret | jit | run =>
      rw [hm] at hc
      cases hc

theorem sourceMode_cases (hmode : o.mode ∈ [Mode.interpret, .jit, .compile, .compileOptimized]) :
    o.mode = .interpret ∨ o.mode = .jit ∨ o.mode.compiles = true := by
  simp only [List.mem_cons, List.not_mem_nil, or_false] at hmode
  rcases hmode with hm | hm | hm | hm
  · exact .inl hm
  · exact .inr (.inl hm)
  · exact .inr (.inr (by rw [hm]; rfl))
  · exact .inr (.inr (by rw [hm]; rfl))

variable {p : Program}

theorem sourceRun_firstInvalid
    (hmode : o.mode ∈ [Mode.interpret, .jit, .compile, .compileOptimized]) {k : Nat}
    {e : InvalidStatement} (he : p.FirstInvalid k e) :
    ∃ count, sourceRun h o p =
      ⟨if o.mode = .interpret then Program.printed (p.take k) else [], .invalidAfter count e,
        some {}, h.disk⟩ := by
  rcases sourceMode_cases hmode with hm | hm | hc
  · refine ⟨UInt32.ofNat (Program.printed (p.take k)).length, ?_⟩
    rw [sourceRun, hm]
    simp only [Strategy.run, strategy, Program.interpret_firstInvalid he]
    rfl
  · refine ⟨0, ?_⟩
    rw [sourceRun, hm]
    simp only [Strategy.run, strategy, Program.buildAndRun_firstInvalid he]
    rfl
  · refine ⟨0, ?_⟩
    have hm : o.mode ≠ .interpret := by
      intro hm
      rw [hm] at hc
      cases hc
    rw [sourceRun, strategy_of_compiles hc, if_neg hm]
    exact Strategy.run_aheadOfTime_firstInvalid he _ _ _ _ _

/-- The row of a rendered diagnostic that says where it is. -/
def locationRow (name : Bytes) (line column : UInt32) : Bytes :=
  utf8 " --> " ++ name ++ utf8 ":" ++ Decimal.ofWord line ++ utf8 ":" ++ Decimal.ofWord column ++
    utf8 "\n"

theorem heading_eq (language : Language) (m : SourceMap) (d : Diagnostic) :
    d.heading language m =
      d.severity.name ++ utf8 "[" ++ d.finding.name ++ utf8 "]: " ++ d.message language ++
        utf8 "\n" ++
        locationRow (m.file d.span.file).name ((m.file d.span.file).locate d.span.lo).line
          ((m.file d.span.file).locate d.span.lo).column ++ utf8 "  |\n" := by
  simp only [Diagnostic.heading, locationRow, List.append_assoc]

theorem heading_prefix (language : Language) (m : SourceMap) (context : UInt32) (d : Diagnostic) :
    d.heading language m <+: d.render language m context := by
  unfold Diagnostic.render
  split
  · simp only [Diagnostic.renderLine, List.append_assoc]
    exact List.prefix_append _ _
  · exact List.prefix_append _ _

/-- The first invalid statement of a source is that of a line, and says which. -/
theorem line_of_firstInvalid {k : Nat} {e : InvalidStatement}
    (he : (Program.ofSource content 0 rule).FirstInvalid k e) :
    ∃ l, (rule.split content)[k]? = some l ∧ e.line = l.number ∧ e.span.file = 0 ∧
      e.span.lo = l.start := by
  obtain ⟨s, hs, _, rfl, _⟩ := he
  rw [Program.ofSource, List.getElem?_map] at hs
  obtain ⟨l, hl, rfl⟩ := Option.map_eq_some_iff.mp hs
  exact ⟨l, hl, rfl, rfl, rfl⟩

/-- The diagnostic of a run that failed at a statement. -/
def shown (h : Host) (o : Options) (content : Bytes) (rule : Newline)
    (e : InvalidStatement) : Bytes :=
  (Diagnostic.invalidStatement e).render (settings h o).language [sourceFile h o content rule]
    (settings h o).context

/-- A run that fails at a statement ends what it says with the diagnostic and a note. -/
theorem stderr_firstInvalid
    (hmode : o.mode ∈ [Mode.interpret, .jit, .compile, .compileOptimized])
    (hcontent : h.disk.openFile o.input = .ok content) (hrule : (settings h o).newline = rule)
    {k : Nat} {e : InvalidStatement} (he : (Program.ofSource content 0 rule).FirstInvalid k e) :
    (runInput h o).stderr = preface h o content rule ++
      (shown h o content rule e ++ utf8 "\n" ++
        note "error" (o.mode.name ++ utf8 " failed at line " ++ Decimal.ofWord e.line)) := by
  obtain rfl := hrule
  obtain ⟨count, hrun⟩ := sourceRun_firstInvalid hmode he
  rw [runInput_source (sourceMode_ne_run hmode) hcontent, hrun]
  simp [report, RunResult.invalidAfter, display, shown]

end Tool
end Linewise
