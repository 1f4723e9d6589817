import Linewise.RunSettings
/-!
What a run without a configuration works with. It reads no file of the configuration, and none of
the variables that override one either: it is a run where neither is there.
-/
namespace Linewise

/-- The environment with some variables unset. -/
def Environment.without (names : List Bytes) (env : Environment) : Environment :=
  env.filter fun e => !names.contains e.1

section
variable {names : List Bytes} {name : Bytes}

theorem Environment.get?_without_of_mem (env : Environment) (h : name ∈ names) :
    (env.without names).get? name = none := by
  have hnone : (env.without names).find? (fun e => e.1 = name) = none := by
    rw [List.find?_eq_none]
    intro e he
    rw [without, List.mem_filter] at he
    simp only [decide_eq_true_eq]
    rintro rfl
    simp [h] at he
  rw [get?, hnone]
  rfl

theorem Environment.get?_without_of_not_mem (env : Environment) (h : name ∉ names) :
    (env.without names).get? name = env.get? name := by
  rw [get?, get?, without, List.find?_filter]
  congr 3
  funext e
  by_cases he : e.1 = name
  · simp [he, h]
  · simp [he]

end

namespace Settings

def Variable.all : List Bytes := [language, context, newline]

theorem readLayer_of_not_file {d : Disk} {path : Bytes} (h : d.isFile path = false)
    (layer : Bytes) : (readLayer d layer path).1 = [] := by
  rw [readLayer]
  split
  · split
    · rename_i content hlook
      rw [Disk.isFile, hlook] at h
      cases h
    · rfl
  · rfl

theorem globalPath_without (d : Disk) (env : Environment) :
    globalPath d (env.without Variable.all) = globalPath d env := by
  rw [globalPath, globalPath, Environment.get?_without_of_not_mem env (by decide),
    Environment.get?_without_of_not_mem env (by decide)]

theorem choose_fst (choices : List String) (fallback : String) (key word : Bytes) :
    (choose choices fallback key word).1 =
      if word.toLower ∈ choices.map utf8 then word.toLower else utf8 fallback := by
  simp only [choose, List.contains_iff_mem]
  split
  · rfl
  · rfl

/-- What the environment alone amounts to. -/
theorem Effective.of_nil (env : Environment) :
    (Effective.of [] env).1 =
      { language := (choose ["en", "ko", "auto"] "auto" Key.language
          ((env.get? Variable.language).getD (utf8 "auto"))).1
        context := normalizeContext (overrideInteger env Variable.context 2).1
        newline := (choose ["crlf", "lf", "universal"] "universal" Key.newline
          ((env.get? Variable.newline).getD (utf8 "universal"))).1 } := by
  rfl

end Settings

namespace RunSettings
open Settings

theorem resolveLanguage_without (env : Environment) (word : Bytes) :
    resolveLanguage (env.without Variable.all) word = resolveLanguage env word := by
  simp only [resolveLanguage, List.findSome?_cons, List.findSome?_nil]
  rw [Environment.get?_without_of_not_mem env (by decide),
    Environment.get?_without_of_not_mem env (by decide),
    Environment.get?_without_of_not_mem env (by decide)]

theorem resolveLanguage_choose (env : Environment) (key word : Bytes) :
    resolveLanguage env (choose ["en", "ko", "auto"] "auto" key word).1 =
      resolveLanguage env word.toLower := by
  rw [choose_fst]
  split
  · rfl
  · rename_i hword
    have hauto : utf8 "auto" ≠ utf8 "ko" ∧ utf8 "auto" ≠ utf8 "en" := by decide
    simp only [List.map_cons, List.map_nil, List.mem_cons, not_or] at hword
    rw [resolveLanguage, if_neg hauto.1, if_neg hauto.2, resolveLanguage, if_neg hword.2.1,
      if_neg hword.1]

theorem newline_ofName (word : Bytes) :
    (Newline.ofName? word).getD .universal =
      if word = utf8 "crlf" then .crlf else if word = utf8 "lf" then .lf else .universal := by
  rw [Newline.ofName?]
  split
  · rfl
  split
  · rfl
  split
  · rfl
  · rfl

theorem newline_choose (key word : Bytes) :
    (Newline.ofName? (choose ["crlf", "lf", "universal"] "universal" key word).1).getD .universal =
      (Newline.ofName? word.toLower).getD .universal := by
  rw [choose_fst]
  split
  · rfl
  · rename_i hword
    simp only [List.map_cons, List.map_nil, List.mem_cons, not_or] at hword
    rw [newline_ofName word.toLower, if_neg hword.1, if_neg hword.2.1]
    rfl

/-- No file of the configuration is there for a run. -/
structure Bare (d : Disk) (env : Environment) (o : Options) : Prop where
  global : d.isFile (globalPath d env) = false
  project : d.isFile (Sources.of d env (anchor? o)).project = false

theorem load_of_bare {d : Disk} {env : Environment} {o : Options} (h : Bare d env o) :
    (load d env { o with noConfig := false, config := none }).1 =
      of o (Effective.of [] env).1 env := by
  have hlayers : (Layers.load d env (anchor? o) none).effective = [] := by
    have hglobal : (readLayer d (utf8 "global") (Sources.of d env (anchor? o)).global).1 = [] :=
      readLayer_of_not_file h.global _
    have hproject := readLayer_of_not_file h.project (utf8 "project")
    simp only [Layers.load, Option.getD_none, hglobal, hproject, Table.overlay, List.foldl_nil]
  have heffective : (load d env { o with noConfig := false, config := none }).1 =
      of o ((Layers.load d env (anchor? o) none).settings env).1 env := rfl
  rw [heffective, Layers.settings, hlayers]

theorem load_noConfig (d : Disk) (env : Environment) (o : Options) :
    (load d env { o with noConfig := true }).1 = of o {} env := rfl

/-- The variables of the tool change no setting of a run: what a variable is for is given by an
option, or its value amounts to the default. -/
structure Idle (env : Environment) (o : Options) : Prop where
  language : o.language = none → ∀ word, env.get? Variable.language = some word →
    resolveLanguage env word.toLower = resolveLanguage env (utf8 "auto")
  context : o.context = none → ∀ word, env.get? Variable.context = some word →
    ∀ n, Decimal.leading? 64 word = some n → UInt32.ofInt (normalizeContext n) = 2
  newline : o.newline = none → ∀ word, env.get? Variable.newline = some word →
    word.toLower ≠ utf8 "crlf" ∧ word.toLower ≠ utf8 "lf"

theorem of_eq_iff (env : Environment) (o : Options) :
    of o (Effective.of [] env).1 env = of o {} env ↔
      (o.language = none → resolveLanguage env (Effective.of [] env).1.language =
        resolveLanguage env (utf8 "auto")) ∧
      (o.context = none → UInt32.ofInt (Effective.of [] env).1.context = 2) ∧
      (o.newline = none →
        (Newline.ofName? (Effective.of [] env).1.newline).getD .universal = .universal) := by
  have hcompile : (of o (Effective.of [] env).1 env).compile = (of o {} env).compile := rfl
  have hparts (s s' : RunSettings) (h : s.compile = s'.compile) :
      s = s' ↔ s.language = s'.language ∧ s.context = s'.context ∧ s.newline = s'.newline := by
    cases s
    cases s'
    simp_all
  have hgiven {α : Type} (option : Option α) (a b : α) :
      option.getD a = option.getD b ↔ (option = none → a = b) := by
    cases option with
    | none => simp
    | some given => simp
  rw [hparts _ _ hcompile]
  exact and_congr (hgiven ..) (and_congr (hgiven ..) (hgiven ..))

theorem universal_iff (word : Bytes) :
    (Newline.ofName? word).getD .universal = .universal ↔
      word ≠ utf8 "crlf" ∧ word ≠ utf8 "lf" := by
  rw [newline_ofName]
  split
  · rename_i hcrlf
    simp [hcrlf]
  · rename_i hcrlf
    split
    · rename_i hlf
      simp [hlf]
    · rename_i hlf
      simp [hcrlf, hlf]

theorem overrideInteger_iff (env : Environment) (name : Bytes) (layered : Int) (p : Int → Prop)
    (hlayered : p layered) :
    p (overrideInteger env name layered).1 ↔ ∀ word, env.get? name = some word →
      ∀ n, Decimal.leading? 64 word = some n → p n := by
  rw [overrideInteger]
  cases env.get? name with
  | none => simpa using hlayered
  | some word =>
      cases hread : Decimal.leading? 64 word with
      | none => simpa [hread] using hlayered
      | some n => simp [hread]

theorem getD_iff (value : Option Bytes) (default : Bytes) (p : Bytes → Prop) (h : p default) :
    p (value.getD default) ↔ ∀ word, value = some word → p word := by
  cases value with
  | none => simpa using h
  | some word => simp

theorem idle_iff (env : Environment) (o : Options) :
    Idle env o ↔ of o (Effective.of [] env).1 env = of o {} env := by
  have hlanguage := getD_iff (env.get? Variable.language) (utf8 "auto")
    (fun word => resolveLanguage env word.toLower = resolveLanguage env (utf8 "auto")) rfl
  have hcontext := overrideInteger_iff env Variable.context 2
    (fun n => UInt32.ofInt (normalizeContext n) = 2) rfl
  have hnewline := getD_iff (env.get? Variable.newline) (utf8 "universal")
    (fun word => word.toLower ≠ utf8 "crlf" ∧ word.toLower ≠ utf8 "lf") (by decide)
  rw [of_eq_iff, Effective.of_nil]
  dsimp only
  rw [resolveLanguage_choose, newline_choose, universal_iff, hlanguage, hcontext, hnewline]
  exact ⟨fun h => ⟨h.language, h.context, h.newline⟩, fun h => ⟨h.1, h.2.1, h.2.2⟩⟩

theorem Bare.without {d : Disk} {env : Environment} {o : Options} (h : Bare d env o) :
    Bare d (env.without Variable.all) o := by
  refine ⟨?_, h.project⟩
  rw [globalPath_without]
  exact h.global

theorem of_without (env : Environment) (o : Options) :
    of o (Effective.of [] (env.without Variable.all)).1 (env.without Variable.all) =
      of o {} env := by
  have hdefault : (Effective.of [] (env.without Variable.all)).1 = {} := by
    rw [Effective.of_nil, overrideInteger, Environment.get?_without_of_mem env (by decide),
      Environment.get?_without_of_mem env (by decide),
      Environment.get?_without_of_mem env (by decide)]
    decide
  rw [hdefault, of, resolveLanguage_without]
  rfl

/-- A run without a configuration has the settings of a run on a disk without its files, from whose
environment the variables of the tool are gone too. With the variables left in place the two agree
just if those are idle. -/
theorem load_noConfig_iff (d : Disk) {bare : Disk} {env : Environment} {o : Options}
    (h : Bare bare env o) :
    let settings := (load d env { o with noConfig := true }).1
    let o' := { o with noConfig := false, config := none }
    settings = (load bare (env.without Variable.all) o').1 ∧
      (settings = (load bare env o').1 ↔ Idle env o) := by
  intro settings o'
  have hsettings : settings = of o {} env := load_noConfig d env o
  rw [hsettings, load_of_bare h, load_of_bare h.without, of_without, idle_iff]
  exact ⟨rfl, eq_comm⟩

/-- A variable that an option overrules, one that is no language, and a negative number. -/
theorem load_noConfig_with_idle_variables :
    let d : Disk := { tree := ⟨[([utf8 ".quill"], .directory),
      ([utf8 ".quill", utf8 "config.toml"], .file (utf8 "[warn]\ndead_emit = true\n"))]⟩ }
    let bare : Disk := { tree := ⟨[([utf8 ".quill"], .directory)]⟩ }
    let env : Environment := [(Variable.newline, utf8 "lf"), (Variable.language, utf8 "fr"),
      (Variable.context, utf8 "-7")]
    let o : Options := { mode := .interpret, input := utf8 "a.qs", newline := some .crlf }
    Bare bare env o ∧ Idle env o ∧
      (load d env { o with noConfig := true }).1 = (load bare env o).1 := by
  intro d bare env o
  have hbare : Bare bare env o := ⟨by decide +kernel, by decide +kernel⟩
  have hidle : Idle env o := by
    rw [idle_iff]
    decide +kernel
  exact ⟨hbare, hidle, (load_noConfig_iff d hbare).2.mpr hidle⟩

/-- The variable that sets the newline counts only where a configuration may. -/
theorem noConfig_ignores_newline_variable :
    let env : Environment := [(Variable.newline, utf8 "lf")]
    let o : Options := { mode := .interpret, input := utf8 "a.qs" }
    Bare {} env o ∧ (load {} env { o with noConfig := true }).1.newline = .universal ∧
      (load {} env o).1.newline = .lf := by
  intro env o
  exact ⟨⟨by decide +kernel, by decide +kernel⟩, by decide +kernel, by decide +kernel⟩

end RunSettings
end Linewise
