import Linewise.Proofs.CommandLine.Scanned
/-!
What an accepted command line amounts to. Its two positional words are the mode and the input path,
each option is what it was given last, and the warnings tell of every negative context and of what
the mode has no use for. A line that is refused says why, and asks for no help.
-/
namespace Linewise
open Occurrence

/-- The warning of an option that the mode has no use for. -/
def Mode.ignores (m : Mode) (flag : ValueFlag) : Bytes :=
  flag.word ++ utf8 " is ignored in " ++ m.name ++ utf8 " mode"

namespace Options

/-- The output path that a command line gives, if any. -/
def givenOutput (given : List Occurrence) : Bytes := (values .output given).getLast?.getD []

/-- Options are those of a command line on which these occur. -/
structure Consistent (o : Options) (args : List Bytes) (given : List Occurrence) : Prop where
  scanned : Scanned args given [o.mode.name, o.input]
  only : ∀ given' positional, Scanned args given' positional →
    given' = given ∧ positional = [o.mode.name, o.input]
  output_iff : o.output ≠ [] ↔ o.mode.compiles = true
  output : o.mode.compiles = true → (values .output given).getLast? = some o.output
  value : ∀ flag : ValueFlag, flag ≠ .output → flag.Shown o (values flag given).getLast?
  level : o.optLevel = (given.filterMap (·.level?)).getLast?
  warnDeadEmits : o.warnDeadEmits = (given.filterMap (·.warnDeadEmits?)).getLast?
  verbose : o.verbose = true ↔ .alone .verbose ∈ given
  noConfig : o.noConfig = true ↔ .alone .noConfig ∈ given
  context_le : ∀ c ∈ o.context, c.toNat ≤ 2 ^ 31 - 1
  level_le : ∀ n ∈ o.optLevel, n ≤ 3
  warnings : o.warnings = List.replicate (negatives given) negativeContext ++
    if o.mode.compiles then []
    else (if givenOutput given = [] then [] else [o.mode.ignores .output]) ++
      if values .artifact given = [] then [] else [o.mode.ignores .artifact]

/-- A mode that compiles keeps its options, any other loses the output path and warns. -/
theorem checkMode_accepted {o : Options} (h : o.checkMode.error = none) :
    (o.mode.compiles = true ∧ o.output ≠ [] ∧ o.checkMode = o) ∨
      o.mode.compiles = false ∧ o.checkMode = { o with
        output := []
        warnings := o.warnings ++ ((if o.output = [] then [] else [o.mode.ignores .output]) ++
          if o.artifact.isSome then [o.mode.ignores .artifact] else []) } := by
  cases hmode : o.mode.compiles with
  | true =>
      by_cases houtput : o.output = []
      · rw [checkMode, if_pos hmode, if_pos (List.isEmpty_iff.mpr houtput)] at h
        cases h
      · refine .inl ⟨rfl, houtput, ?_⟩
        rw [checkMode, if_pos hmode, if_neg (mt List.isEmpty_iff.mp houtput)]
  | false =>
      refine .inr ⟨rfl, ?_⟩
      rw [checkMode, if_neg (by simp [hmode])]
      simp only [List.append_assoc, List.isEmpty_iff]
      rfl

/-- The positional words that are accepted. -/
theorem takePositional_accepted {o : Options} {positional : List Bytes}
    (h : (o.takePositional positional).error = none) :
    ∃ mode input, positional = [mode.name, input] ∧
      o.takePositional positional = { o with mode, input }.checkMode := by
  cases positional with
  | nil => cases h
  | cons w rest =>
      cases hword : Mode.ofWord? w with
      | none =>
          rw [takePositional, hword] at h
          cases h
      | some mode =>
          have hname : decide (mode.name = w) = true :=
            List.find?_some (p := fun m : Mode => decide (m.name = w)) hword
          obtain rfl := of_decide_eq_true hname
          rcases rest with _ | ⟨input, _ | ⟨extra, rest⟩⟩
          · rw [takePositional, hword] at h
            cases h
          · exact ⟨mode, input, rfl, by rw [takePositional, hword]⟩
          · rw [takePositional, hword] at h
            cases h

theorem Shows.context_le {o : Options} {given : List Occurrence} (h : o.Shows given) :
    ∀ c ∈ o.context, c.toNat ≤ 2 ^ 31 - 1 := by
  intro c hc
  have hshown := h.value .context
  generalize (values .context given).getLast? = last at hshown
  rw [ValueFlag.Shown, Option.mem_def.mp hc] at hshown
  cases hshown with
  | some hvalue =>
      obtain ⟨n, -, hword, rfl⟩ := hvalue
      rw [InWord] at hword
      rw [UInt32.toNat_ofNat']
      omega

theorem Shows.level_le {o : Options} {args : List Bytes} {given : List Occurrence}
    {positional : List Bytes} (h : o.Shows given) (hscanned : Scanned args given positional) :
    ∀ n ∈ o.optLevel, n ≤ 3 := by
  intro n hn
  rw [h.level] at hn
  obtain ⟨occurrence, hmem, hlevel⟩ := List.mem_filterMap.mp (List.mem_of_getLast? hn)
  have halone : occurrence = .alone (.level n) := by
    unfold level? at hlevel
    split at hlevel
    · cases hlevel
      rfl
    · cases hlevel
  obtain ⟨w, -, hw⟩ := hscanned.exists_word (halone ▸ hmem)
  exact (List.mem_ite_nil_right.mp hw).1

theorem Shows.artifact_isSome {o : Options} {given : List Occurrence} (h : o.Shows given) :
    o.artifact.isSome = true ↔ values .artifact given ≠ [] := by
  have hshown := h.value .artifact
  rw [Ne, ← List.getLast?_eq_none_iff]
  generalize (values .artifact given).getLast? = last at hshown ⊢
  rw [ValueFlag.Shown] at hshown
  generalize o.artifact = artifact at hshown ⊢
  cases hshown with
  | none => simp
  | some hname => simp

/-- What was shown on the way is consistent once the positional words are taken. -/
theorem Shows.consistent {o : Options} {args : List Bytes} {given : List Occurrence}
    (h : o.Shows given) {mode : Mode} {input : Bytes}
    (hscanned : Scanned args given [mode.name, input])
    (herror : ({ o with mode, input } : Options).checkMode.error = none) :
    ({ o with mode, input } : Options).checkMode.Consistent args given := by
  have hshown (output warnings) (flag : ValueFlag) (hflag : flag ≠ .output) :=
    (ValueFlag.shown_taken o mode input output warnings hflag _).mpr (h.value flag)
  have houtput : o.output = givenOutput given := h.value .output
  have honly := fun given' positional (h' : Scanned args given' positional) => hscanned.unique h'
  rcases checkMode_accepted herror with ⟨hmode, hne, heq⟩ | ⟨hmode, heq⟩
  · rw [heq]
    dsimp only at hmode hne
    refine ⟨hscanned, honly, ⟨fun _ => hmode, fun _ => hne⟩, fun _ => ?_, hshown _ _, h.level,
      h.warnDeadEmits, h.verbose, h.noConfig, h.context_le, h.level_le hscanned, ?_⟩
    · cases hlast : (values .output given).getLast? with
      | none =>
          rw [houtput, givenOutput, hlast] at hne
          exact absurd rfl hne
      | some v =>
          rw [givenOutput, hlast] at houtput
          exact congrArg some houtput.symm
    · rw [if_pos hmode, List.append_nil]
      exact h.warnings
  · rw [heq]
    dsimp only at hmode
    refine ⟨hscanned, honly, by simp [hmode], by simp [hmode], hshown _ _, h.level,
      h.warnDeadEmits, h.verbose, h.noConfig, h.context_le, h.level_le hscanned, ?_⟩
    have hartifact : (if o.artifact.isSome then [mode.ignores .artifact] else []) =
        if values .artifact given = [] then [] else [mode.ignores .artifact] := by
      by_cases hgiven : values .artifact given = []
      · rw [if_pos hgiven, if_neg (by simpa [h.artifact_isSome] using hgiven)]
      · rw [if_neg hgiven, if_pos (h.artifact_isSome.mpr hgiven)]
    simp only [hmode, h.warnings, houtput, hartifact, Bool.false_eq_true, if_false]

end Options

namespace OptionError

theorem message_ne_nil (e : OptionError) : e.message ≠ [] := by
  cases e <;> simp [message, utf8]

end OptionError

namespace Options

/-- A request is answered: no fault is met, and no mode of work. -/
theorem not_isRequest_of_read {args : List Bytes}
    (h : (read args).error ≠ none ∨ (read args).mode ≠ .usage ∧ (read args).mode ≠ .version) :
    ∀ w ∈ args, ¬ IsRequest w := by
  intro w hw hrequest
  rcases read_of_request hw hrequest with heq | heq
  · rw [heq] at h
    exact h.elim (· rfl) (·.2 rfl)
  · rw [heq] at h
    exact h.elim (· rfl) (·.1 rfl)

/-- An accepted command line is consistent; one that is refused has a reason to be. -/
theorem read_consistent (args : List Bytes) :
    ((read args).error = none → (read args).mode ≠ .usage → (read args).mode ≠ .version →
      ∃ given, (read args).Consistent args given) ∧
    ∀ e, (read args).error = some e → e.message ≠ [] ∧ ∀ w ∈ args, ¬ IsRequest w := by
  constructor
  · intro herror husage hversion
    have hrequest := not_isRequest_of_read (.inr ⟨husage, hversion⟩)
    have hne : args ≠ [] := by
      rintro rfl
      exact husage rfl
    rw [read_of_not_request hne hrequest] at herror ⊢
    dsimp only at herror ⊢
    split at herror
    · rename_i hsome
      rw [herror] at hsome
      cases hsome
    · rename_i hnone
      rw [if_neg hnone]
      obtain ⟨given, positional, hscanned, hpositional, hshows⟩ :=
        shows_nil.readWords [] none args (by simpa using hnone)
      obtain ⟨mode, input, hwords, heq⟩ := takePositional_accepted herror
      rw [hpositional, List.nil_append] at hwords
      subst hwords
      rw [heq] at herror ⊢
      exact ⟨given, hshows.consistent hscanned herror⟩
  · intro e he
    exact ⟨e.message_ne_nil, not_isRequest_of_read (.inl (by simp [he]))⟩

/-- A line on which one option is given twice and another one as a value, and a line that ends too
early. -/
theorem read_consistent_of_repeated :
    (∃ given, (read [utf8 "--context", utf8 "-5", utf8 "-o", utf8 "-v", utf8 "jit",
      utf8 "--context", utf8 "2", utf8 "-"]).Consistent
        [utf8 "--context", utf8 "-5", utf8 "-o", utf8 "-v", utf8 "jit", utf8 "--context",
          utf8 "2", utf8 "-"] given) ∧
      (read [utf8 "run", utf8 "--lang"]).error = some (.missingValue (utf8 "--lang")) ∧
      (OptionError.missingValue (utf8 "--lang")).message ≠ [] :=
  ⟨(read_consistent _).1 (by decide) (by decide) (by decide), by decide,
    ((read_consistent [utf8 "run", utf8 "--lang"]).2 _ (by decide)).1⟩

end Options
end Linewise
