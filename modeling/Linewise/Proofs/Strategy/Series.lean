import Linewise.Proofs.Program.Accepted
import Linewise.Proofs.Program.DeadEmits
import Linewise.Proofs.Strategy.Failure
/-!
Series of compilations at one sink and one bag. A compilation hands a whole artifact to the sink or
leaves it alone, and which of the two does not depend on the sink. So a series leaves behind what
its last successful compilation made.
-/
namespace Linewise

variable {σ : Type}

/-- The sink, with a note of every call that it is asked and of its answer. -/
def Sink.logged (sink : Sink σ) : Sink (σ × List (Bytes × Reply)) where
  target := sink.target
  persist bytes s :=
    let asked := sink.persist bytes s.1
    (asked.1, asked.2, s.2 ++ [(bytes, asked.1)])

namespace Sink

variable (sink : Sink σ) (artifact : Artifact) (notes : List Message) (bytes : Bytes) (s : σ)

theorem keep_memory : (sink.keep artifact notes bytes s).2 = (sink.persist bytes s).2 := by
  simp only [keep]
  split
  · rfl
  · rfl

theorem keep_ok :
    (sink.keep artifact notes bytes s).1.ok = true ↔ (sink.persist bytes s).1 = .kept := by
  cases h : (sink.persist bytes s).1 with
  | kept => simp [keep, h]
  | refused failure => simp [keep, h]

theorem keep_logged (calls : List (Bytes × Reply)) :
    sink.logged.keep artifact notes bytes (s, calls) =
      ((sink.keep artifact notes bytes s).1, (sink.persist bytes s).2,
        calls ++ [(bytes, (sink.persist bytes s).1)]) := by
  cases h : (sink.persist bytes s).1 with
  | kept => simp [keep, logged, h]
  | refused failure => simp [keep, logged, h]

end Sink

/-- A compilation and which endpoints it is given. -/
structure Job where
  program : Program
  options : CompileOptions
  hasOutput : Bool
  hasSink : Bool
  hasBag : Bool

namespace Job

def run (job : Job) (sink : Sink σ) (s : σ) (bag : Bag) : Run σ :=
  Strategy.run .aheadOfTime job.options
    ⟨job.hasOutput, if job.hasSink then some sink else none, if job.hasBag then some bag else none⟩
    job.program s

def built (job : Job) : Except InvalidStatement Listing :=
  (job.program.buildWith job.options.optimize job.options.warnDeadEmits none).1

/-- There is a sink, a program to build and a kind of artifact that can be made. -/
def Compiles (job : Job) : Prop :=
  job.hasSink = true ∧ job.program.Valid ∧ job.options.artifact ≠ .object

/-- The artifact is the text of the listing that is built, or the text that it is lowered to. -/
inductive Makes (job : Job) : Bytes → Prop where
  | listing {l : Listing} (kind : job.options.artifact = .listing) (built : job.built = .ok l) :
      Makes job l.write
  | assembly {l : Listing} {text : Bytes} (kind : job.options.artifact = .assembly)
      (built : job.built = .ok l) (lowered : l.lower { target := job.options.target } = .ok text) :
      Makes job text

/-- One warning for each emit after the last print, if the compilation is asked for warnings, has
a bag for them and gets as far as folding. -/
def warnings (job : Job) : List Diagnostic :=
  if job.hasSink ∧ job.hasBag ∧ job.options.optimize ∧ job.options.warnDeadEmits ∧
      job.program.Valid then
    job.program.trailingEmits.map .deadEmit
  else []

/-- What the bag is after the compilation, if there is one. -/
def bagAfter (job : Job) (bag : Bag) : Option Bag :=
  if job.hasBag then some (bag.report job.warnings) else none

variable {job : Job}

theorem warnings_of_valid (hsink : job.hasSink = true) (hbag : job.hasBag = true)
    (hv : job.program.Valid) :
    (if job.options.optimize && job.options.warnDeadEmits then
      job.program.trailingEmits.map .deadEmit else []) = job.warnings := by
  simp [warnings, hsink, hbag, hv]

theorem bagAfter_getD (job : Job) (bag : Bag) :
    (job.bagAfter bag).getD bag = bag.report job.warnings := by
  cases hbag : job.hasBag with
  | false =>
      have hwarnings : job.warnings = [] := if_neg (by simp [hbag])
      simp [bagAfter, hbag, hwarnings]
  | true => simp [bagAfter, hbag]

theorem run_spared (hsink : job.hasSink = false) (bag : Bag) :
    ∃ result, result.ok = false ∧ ∀ (σ : Type) (sink : Sink σ) s,
      job.run sink s bag = ⟨[], result, job.bagAfter bag, s⟩ := by
  have hwarnings : job.warnings = [] := if_neg (by simp [hsink])
  refine ⟨.unable (utf8 "AOT backend requires an execution sink."), rfl, ?_⟩
  intro σ sink s
  simp [run, Strategy.run, hsink, bagAfter, hwarnings]

theorem run_stopped {k : Nat} {e : InvalidStatement} (h : job.program.FirstInvalid k e)
    (hsink : job.hasSink = true) (bag : Bag) (sink : Sink σ) (s : σ) :
    job.run sink s bag = ⟨[], .invalidAfter 0 e, job.bagAfter bag, s⟩ := by
  have hwarnings : job.warnings = [] := if_neg fun hc => h.not_valid hc.2.2.2.2
  simp only [run, hsink, if_true]
  rw [Strategy.run_aheadOfTime_firstInvalid h]
  simp [bagAfter, hwarnings]

/-- Whatever the sink, a valid program is built, and its listing is made into an artifact. -/
theorem run_valid (hsink : job.hasSink = true) (hv : job.program.Valid) (bag : Bag) :
    ∃ l, job.built = .ok l ∧ l.optimized = job.options.optimize ∧ l.Accepted ∧
      ∀ (σ : Type) (sink : Sink σ) s, job.run sink s bag =
        ⟨[], (l.persist job.options sink s).1, job.bagAfter bag,
          (l.persist job.options sink s).2⟩ := by
  -- The builder is given the bag, but it makes the same listing without one.
  let given := if job.hasBag then some bag else none
  obtain ⟨l, hl, hoptimized, haccepted⟩ :=
    Program.buildWith_accepted hv job.options.optimize job.options.warnDeadEmits none
  have hbuilt := hl
  rw [Program.buildWith_fst_congr _ _ _ job.options.warnDeadEmits none given] at hbuilt
  have hreports :
      (job.program.buildWith job.options.optimize job.options.warnDeadEmits given).2 =
        job.bagAfter bag := by
    rw [Program.buildWith_reports hv, bagAfter]
    cases hbag : job.hasBag with
    | false => simp [given, hbag]
    | true =>
        rw [← warnings_of_valid hsink hbag hv]
        simp [given, hbag]
  refine ⟨l, hl, hoptimized, haccepted, ?_⟩
  intro σ sink s
  simp only [run, Strategy.run, hsink, if_true, Program.compile]
  rw [show (if job.hasBag = true then some bag else none) = given from rfl, hbuilt, hreports]

end Job

namespace Listing

/-- What a compilation notes about a listing before it makes its artifact. -/
def notes (options : CompileOptions) (l : Listing) : List Message :=
  if options.optimize then [l.foldNote] else []

theorem persist_of_accepted {l : Listing} {options : CompileOptions} (h : l.Accepted)
    (ho : l.optimized = options.optimize) (sink : Sink σ) (s : σ) :
    l.persist options sink s = match l.artifact options with
      | .error errors => ({ messages := l.notes options ++ errors }, s)
      | .ok bytes => sink.keep options.artifact (l.notes options) bytes s := by
  have hverify : l.verify (if options.optimize then .optimized else .any) = [] := by
    rw [← ho]
    exact h
  rw [persist, hverify]
  rfl

end Listing

namespace Job

variable {job : Job}

theorem run_makes (h : job.Compiles) (bag : Bag) :
    ∃ bytes notes, job.Makes bytes ∧ ∀ (σ : Type) (sink : Sink σ) s, job.run sink s bag =
      ⟨[], (sink.keep job.options.artifact notes bytes s).1, job.bagAfter bag,
        (sink.keep job.options.artifact notes bytes s).2⟩ := by
  obtain ⟨hsink, hv, hkind⟩ := h
  obtain ⟨l, hl, hoptimized, haccepted, hrun⟩ := run_valid hsink hv bag
  have hmade : ∃ bytes, l.artifact job.options = .ok bytes ∧ job.Makes bytes := by
    cases hartifact : job.options.artifact with
    | listing => exact ⟨l.write, by rw [Listing.artifact, hartifact], .listing hartifact hl⟩
    | assembly =>
        obtain ⟨text, htext⟩ := haccepted.lower { target := job.options.target }
        refine ⟨text, ?_, .assembly hartifact hl htext⟩
        simp only [Listing.artifact, hartifact, htext]
    | object => exact absurd hartifact hkind
  obtain ⟨bytes, hbytes, hmakes⟩ := hmade
  refine ⟨bytes, l.notes job.options, hmakes, ?_⟩
  intro σ sink s
  rw [hrun, Listing.persist_of_accepted haccepted hoptimized, hbytes]

theorem run_leaves (h : ¬ job.Compiles) (bag : Bag) :
    ∃ result, result.ok = false ∧ ∀ (σ : Type) (sink : Sink σ) s,
      job.run sink s bag = ⟨[], result, job.bagAfter bag, s⟩ := by
  cases hsink : job.hasSink with
  | false => exact run_spared hsink bag
  | true =>
      rcases job.program.valid_or_firstInvalid with hv | ⟨k, e, he⟩
      · have hkind : job.options.artifact = .object := by
          by_contra hne
          exact h ⟨hsink, hv, hne⟩
        obtain ⟨l, _, hoptimized, haccepted, hrun⟩ := run_valid hsink hv bag
        obtain ⟨text, htext⟩ := haccepted.lower { target := job.options.target }
        have hartifact : l.artifact job.options = .error [objectUnavailable] := by
          simp only [Listing.artifact, hkind, htext]
        refine ⟨{ messages := l.notes job.options ++ [objectUnavailable] }, rfl, ?_⟩
        intro σ sink s
        rw [hrun, Listing.persist_of_accepted haccepted hoptimized, hartifact]
      · exact ⟨.invalidAfter 0 e, rfl, fun σ sink s => run_stopped he hsink bag sink s⟩

end Job

/-- What the compilations of a series share. -/
structure Shared (σ : Type) where
  memory : σ
  bag : Bag := {}

/-- A compilation of a series: what it found, what it asked the sink, what it reports and left. -/
structure Record (σ : Type) where
  job : Job
  before : Shared σ
  calls : List (Bytes × Reply)
  result : RunResult
  after : Shared σ

/-- Runs a compilation where the one before left off, with a note of its calls. -/
def Job.record (sink : Sink σ) (s : Shared σ) (job : Job) : Record σ :=
  let run := job.run sink.logged (s.memory, []) s.bag
  ⟨job, s, run.memory.2, run.result, ⟨run.memory.1, run.bag.getD s.bag⟩⟩

namespace Shared

def records (sink : Sink σ) (s : Shared σ) : List Job → List (Record σ)
  | [] => []
  | job :: rest => job.record sink s :: (job.record sink s).after.records sink rest

/-- What is left after the last compilation. -/
def settle (sink : Sink σ) (s : Shared σ) (jobs : List Job) : Shared σ :=
  jobs.foldl (fun s job => (job.record sink s).after) s

end Shared

namespace Record

/-- A compilation asks the sink once, with its whole artifact, or not at all. -/
structure AllOrNothing (sink : Sink σ) (r : Record σ) : Prop where
  atMostOnce : r.calls.length ≤ 1
  once_iff : r.calls.length = 1 ↔ r.job.Compiles
  artifact : ∀ call ∈ r.calls, r.job.Makes call.1
  answer : ∀ call ∈ r.calls, sink.persist call.1 r.before.memory = (call.2, r.after.memory)
  untouched : r.calls = [] → r.after.memory = r.before.memory
  ok_iff : r.result.ok = true ↔ ∃ bytes, r.calls = [(bytes, .kept)]
  reported : r.after.bag = r.before.bag.report r.job.warnings
  /-- Noting the calls changes nothing. -/
  unnoted : ∃ bag, r.job.run sink r.before.memory r.before.bag =
    ⟨[], r.result, bag, r.after.memory⟩ ∧ r.after.bag = bag.getD r.before.bag

end Record

theorem Job.record_allOrNothing (sink : Sink σ) (s : Shared σ) (job : Job) :
    (job.record sink s).AllOrNothing sink := by
  have hbag := job.bagAfter_getD s.bag
  by_cases h : job.Compiles
  · obtain ⟨bytes, notes, hmakes, hrun⟩ := Job.run_makes h s.bag
    have hrecord : job.record sink s =
        ⟨job, s, [(bytes, (sink.persist bytes s.memory).1)],
          (sink.keep job.options.artifact notes bytes s.memory).1,
          ⟨(sink.persist bytes s.memory).2, s.bag.report job.warnings⟩⟩ := by
      simp only [Job.record, hrun, Sink.keep_logged, hbag, List.nil_append]
    rw [hrecord]
    exact
      { atMostOnce := Nat.le_refl 1
        once_iff := iff_of_true rfl h
        artifact := by simpa using hmakes
        answer := by simp
        untouched := by simp
        ok_iff := by simp [Sink.keep_ok]
        reported := rfl
        unnoted := ⟨_, by rw [hrun, Sink.keep_memory], hbag.symm⟩ }
  · obtain ⟨result, hfailed, hrun⟩ := Job.run_leaves h s.bag
    have hrecord : job.record sink s =
        ⟨job, s, [], result, ⟨s.memory, s.bag.report job.warnings⟩⟩ := by
      simp only [Job.record, hrun, hbag]
    rw [hrecord]
    exact
      { atMostOnce := Nat.zero_le 1
        once_iff := by simpa using h
        artifact := by simp
        answer := by simp
        untouched := fun _ => rfl
        ok_iff := by simp [hfailed]
        reported := rfl
        unnoted := ⟨_, by rw [hrun], hbag.symm⟩ }

namespace Shared

variable (sink : Sink σ) (s : Shared σ) (job : Job) (jobs : List Job)

theorem settle_cons :
    s.settle sink (job :: jobs) = (job.record sink s).after.settle sink jobs := rfl

theorem records_allOrNothing : ∀ r ∈ s.records sink jobs, r.AllOrNothing sink := by
  induction jobs generalizing s with
  | nil => simp [records]
  | cons job jobs ih =>
      rw [records, List.forall_mem_cons]
      exact ⟨job.record_allOrNothing sink s, ih _⟩

theorem map_job_records : (s.records sink jobs).map (·.job) = jobs := by
  induction jobs generalizing s with
  | nil => rfl
  | cons job jobs ih =>
      rw [records, List.map_cons, ih]
      rfl

/-- The records that ended well. -/
def kept (records : List (Record σ)) : List (Record σ) := records.filter (·.result.ok)

/-- At a memory a compilation that ends well replaces what it holds, and any other does nothing. -/
theorem record_memory (s : Shared Memory) (job : Job) :
    ((job.record Memory.sink s).result.ok = true ∧
      ∃ bytes, (job.record Memory.sink s).calls = [(bytes, .kept)] ∧
        (job.record Memory.sink s).after.memory = ⟨bytes, s.memory.count + 1⟩) ∨
      ((job.record Memory.sink s).result.ok = false ∧
        (job.record Memory.sink s).after.memory = s.memory) := by
  have h := job.record_allOrNothing Memory.sink s
  rcases hcalls : (job.record Memory.sink s).calls with _ | ⟨⟨bytes, reply⟩, rest⟩
  · right
    refine ⟨?_, h.untouched hcalls⟩
    rw [Bool.eq_false_iff]
    intro hok
    obtain ⟨bytes, hcall⟩ := h.ok_iff.mp hok
    rw [hcalls] at hcall
    cases hcall
  · left
    have hlength := h.atMostOnce
    rw [hcalls, List.length_cons] at hlength
    obtain rfl : rest = [] := List.length_eq_zero_iff.mp (by omega)
    have hanswer := h.answer (bytes, reply) (by rw [hcalls]; exact List.mem_cons_self)
    obtain ⟨rfl, hmemory⟩ := Prod.mk.inj hanswer
    exact ⟨h.ok_iff.mpr ⟨bytes, hcalls⟩, bytes, rfl, hmemory.symm⟩

/-- A memory holds what the last compilation that ended well gave it, and has counted them all. -/
theorem memory_settle (s : Shared Memory) (jobs : List Job) :
    (s.settle Memory.sink jobs).memory.count =
        s.memory.count + UInt32.ofNat (kept (s.records Memory.sink jobs)).length ∧
      (∀ r, (kept (s.records Memory.sink jobs)).getLast? = some r →
        r.calls = [((s.settle Memory.sink jobs).memory.bytes, .kept)]) ∧
      (kept (s.records Memory.sink jobs) = [] → (s.settle Memory.sink jobs).memory = s.memory) := by
  induction jobs generalizing s with
  | nil => simp [records, settle, kept]
  | cons job jobs ih =>
      have hstep := record_memory s job
      rw [settle_cons, records]
      generalize job.record Memory.sink s = r at hstep ⊢
      obtain ⟨hcount, hlast, hnone⟩ := ih r.after
      rcases hstep with ⟨hok, bytes, hcalls, hmemory⟩ | ⟨hok, hmemory⟩
      · have hkept : kept (r :: r.after.records Memory.sink jobs) =
            r :: kept (r.after.records Memory.sink jobs) := List.filter_cons_of_pos hok
        rw [hkept, hcount, hmemory]
        refine ⟨?_, ?_, by simp⟩
        · rw [List.length_cons, UInt32.ofNat_add, UInt32.add_assoc, UInt32.add_comm 1]
          rfl
        · intro r' hr'
          rw [List.getLast?_cons] at hr'
          -- Only if nothing after it ended well does the memory still hold what this one gave it.
          cases hrest : (kept (r.after.records Memory.sink jobs)).getLast? with
          | none =>
              have hempty := hnone (List.getLast?_eq_none_iff.mp hrest)
              rw [hrest] at hr'
              obtain rfl : r = r' := Option.some.inj hr'
              rw [hcalls, hempty, hmemory]
          | some last =>
              rw [hrest] at hr'
              obtain rfl : last = r' := Option.some.inj hr'
              exact hlast last hrest
      · have hkept : kept (r :: r.after.records Memory.sink jobs) =
            kept (r.after.records Memory.sink jobs) := List.filter_cons_of_neg (by simp [hok])
        rw [hkept, hcount, hmemory]
        exact ⟨rfl, hlast, fun h => (hnone h).trans hmemory⟩

end Shared

/-- In any series of compilations at any sink each does all or nothing. A memory ends up with the
artifact of the last one that ended well and has counted those that did. Listings that were built
are never refused by the verification or by the lowering. -/
theorem series_all_or_nothing (jobs : List Job) :
    (∀ (σ : Type) (sink : Sink σ) (s : Shared σ),
      (s.records sink jobs).map (·.job) = jobs ∧
        ∀ r ∈ s.records sink jobs, r.AllOrNothing sink) ∧
      (∀ s : Shared Memory,
        (s.settle Memory.sink jobs).memory.count =
            s.memory.count + UInt32.ofNat (Shared.kept (s.records Memory.sink jobs)).length ∧
          (∀ r, (Shared.kept (s.records Memory.sink jobs)).getLast? = some r →
            r.calls = [((s.settle Memory.sink jobs).memory.bytes, .kept)]) ∧
          (Shared.kept (s.records Memory.sink jobs) = [] →
            (s.settle Memory.sink jobs).memory = s.memory)) ∧
      ∀ (p : Program) (optimize warn : Bool) (bag : Option Bag) (l : Listing),
        (p.buildWith optimize warn bag).1 = .ok l →
          l.verify (if optimize then .optimized else .any) = [] ∧
            ∀ header, ∃ text, l.lower header = .ok text := by
  refine ⟨?_, fun s => s.memory_settle jobs, ?_⟩
  · intro σ sink s
    exact ⟨s.map_job_records sink jobs, s.records_allOrNothing sink jobs⟩
  · intro p optimize warn bag l hl
    obtain ⟨rfl, haccepted⟩ := Program.accepted_of_buildWith hl
    exact ⟨haccepted, haccepted.lower⟩

theorem series_all_or_nothing_at_refusing_sink :
    let job : Job :=
      ⟨Program.ofLines [utf8 "a", utf8 "p", utf8 "b"],
        { optimize := true, warnDeadEmits := true }, false, true, true⟩
    ∃ r, Shared.records (Sink.refusing none) ⟨0, {}⟩ [job] = [r] ∧
      r.calls.length = 1 ∧ r.after.bag.warnings = 1 := by
  intro job
  refine ⟨job.record (Sink.refusing none) ⟨0, {}⟩, rfl, ?_⟩
  have h := ((series_all_or_nothing [job]).1 UInt32 (Sink.refusing none) ⟨0, {}⟩).2 _
    List.mem_cons_self
  refine ⟨h.once_iff.mpr ⟨rfl, by decide, by decide⟩, ?_⟩
  rw [h.reported]
  decide

end Linewise
