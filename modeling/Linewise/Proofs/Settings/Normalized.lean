import Linewise.Line
import Linewise.Settings.Effective
import Mathlib.Data.List.Nodup
/-!
What the effective settings are. Each setting is asked for by its variable, by the configuration or
else by its default, in this order, and what is asked for is made a value that can be used. Every
value that had to be passed over is warned of once.
-/
namespace Linewise

namespace Settings

def Value.text? : Value → Option Bytes
  | .text s => some s
  | .integer _ | .boolean _ => none

def Value.integer? : Value → Option Int
  | .integer n => some n
  | .text _ | .boolean _ => none

def Value.boolean? : Value → Option Bool
  | .boolean b => some b
  | .text _ | .integer _ => none

/-- Whether a value is of a kind. -/
def Value.isOf : ValueKind → Value → Bool
  | .text, .text _ | .integer, .integer _ | .boolean, .boolean _ => true
  | _, _ => false

/-- The known keys with the kinds of values that they want. -/
def Key.wanted : List (Bytes × ValueKind) :=
  [(language, .text), (context, .integer), (newline, .text), (optimize, .boolean),
    (artifact, .text), (warnDeadEmits, .boolean), (target, .text), (cpu, .text),
    (optLevel, .integer)]

theorem Key.map_wanted : wanted.map (·.1) = all := rfl

/-- The settings that are a word of a few. -/
inductive Choice where
  | language
  | newline
  | artifact
  deriving DecidableEq

def Effective.choice (s : Effective) : Choice → Bytes
  | .language => s.language
  | .newline => s.newline
  | .artifact => s.artifact

namespace Choice

def all : List Choice := [.language, .newline, .artifact]

def key : Choice → Bytes
  | .language => Key.language
  | .newline => Key.newline
  | .artifact => Key.artifact

/-- The environment variable that overrides the choice. -/
def override? : Choice → Option Bytes
  | .language => some Variable.language
  | .newline => some Variable.newline
  | .artifact => none

def words : Choice → List String
  | .language => ["en", "ko", "auto"]
  | .newline => ["crlf", "lf", "universal"]
  | .artifact => ["qir", "llvm-ir", "object"]

def fallback : Choice → String
  | .language => "auto"
  | .newline => "universal"
  | .artifact => "qir"

/-- The word that is asked for. -/
def asked (c : Choice) (t : Table) (env : Environment) : Bytes :=
  ((c.override?.bind env.get?).or ((t.get? c.key).bind Value.text?)).getD
    (({} : Effective).choice c)

/-- The word in lower case if that is one of the few, and the fallback if not. -/
def settle (c : Choice) (word : Bytes) : Bytes :=
  if (c.words.map utf8).contains word.toLower then word.toLower else utf8 c.fallback

end Choice

/-- The context that is asked for. -/
def askedContext (t : Table) (env : Environment) : Int :=
  (((env.get? Variable.context).bind (Decimal.leading? 64)).or
    ((t.get? Key.context).bind Value.integer?)).getD ({} : Effective).context

/-- The level that is asked for. -/
def askedLevel (t : Table) : Int :=
  ((t.get? Key.optLevel).bind Value.integer?).getD ({} : Effective).optLevel

/-- Every setting is what is asked for, brought among the values that it may have. -/
structure Effective.Settled (s : Effective) (t : Table) (env : Environment) : Prop where
  choice : ∀ c, s.choice c = c.settle (c.asked t env)
  context : s.context = if askedContext t env < 0 then 2 else askedContext t env
  optLevel : s.optLevel = max 0 (min (askedLevel t) 3)
  optimize : s.optimize =
    ((t.get? Key.optimize).bind Value.boolean?).getD ({} : Effective).optimize
  warnDeadEmits : s.warnDeadEmits =
    ((t.get? Key.warnDeadEmits).bind Value.boolean?).getD ({} : Effective).warnDeadEmits
  target : s.target = ((t.get? Key.target).bind Value.text?).getD ({} : Effective).target
  cpu : s.cpu = ((t.get? Key.cpu).bind Value.text?).getD ({} : Effective).cpu

/-- Every setting can be used as it is. -/
structure Effective.Valid (s : Effective) : Prop where
  choice : ∀ c, s.choice c ∈ c.words.map utf8
  newline : (Newline.ofName? s.newline).isSome = true
  context : 0 ≤ s.context
  optLevel : 0 ≤ s.optLevel ∧ s.optLevel ≤ 3

/-- What there is to warn of. -/
inductive SettingWarning where
  | wrongKind (key : Bytes) (kind : ValueKind)
  | unreadable
  | fellBack (c : Choice) (word : Bytes)

namespace SettingWarning

def text : SettingWarning → Bytes
  | .wrongKind key kind =>
    utf8 "config key " ++ key.quoted ++ utf8 " has wrong type (expected " ++ kind.name ++ utf8 ")"
  | .unreadable => Variable.context ++ utf8 " is not an integer, ignored"
  | .fellBack c word =>
    utf8 "config key " ++ c.key.quoted ++ utf8 " has unsupported value " ++ word.quoted ++
      utf8 ", using " ++ (utf8 c.fallback).quoted

/-- A known key has a value of the wrong kind, the variable of the context starts with no integer,
or the word that is asked for is none of the few. -/
def Arises (t : Table) (env : Environment) : SettingWarning → Prop
  | .wrongKind key kind =>
    (key, kind) ∈ Key.wanted ∧ ∃ v, t.get? key = some v ∧ v.isOf kind = false
  | .unreadable => ∃ v, env.get? Variable.context = some v ∧ Decimal.leading? 64 v = none
  | .fellBack c word => word = (c.asked t env).toLower ∧ word ∉ c.words.map utf8

end SettingWarning

/-- Whether a key has a value of another kind. -/
def hasWrongKind (t : Table) (key : Bytes) (kind : ValueKind) : Bool :=
  (t.get? key).any fun v => !v.isOf kind

def hasUnreadableContext (env : Environment) : Bool :=
  (env.get? Variable.context).any fun v => (Decimal.leading? 64 v).isNone

def Choice.fallsBack (c : Choice) (word : Bytes) : Bool := !(c.words.map utf8).contains word.toLower

/-- The warnings in the order in which they arise. -/
def SettingWarning.log (t : Table) (env : Environment) : List SettingWarning :=
  (Key.wanted.filter fun e => hasWrongKind t e.1 e.2).map (fun e => .wrongKind e.1 e.2) ++
    (if hasUnreadableContext env then [.unreadable] else []) ++
    (Choice.all.filter fun c => c.fallsBack (c.asked t env)).map
      fun c => .fellBack c (c.asked t env).toLower

theorem map_filter_eq_flatMap {α β : Type} (p : α → Bool) (f : α → β) (l : List α) :
    (l.filter p).map f = l.flatMap fun a => if p a then [f a] else [] := by
  induction l with
  | nil => rfl
  | cons a l ih =>
      rw [List.filter_cons, List.flatMap_cons, ← ih]
      split
      · rfl
      · rfl

section
variable (t : Table) (key : Bytes)

theorem fetch_eq {α : Type} {kind : ValueKind} {select read : Value → Option α}
    (hselect : ∀ v, select v = read v) (hread : ∀ v, (read v).isSome = v.isOf kind)
    (fallback : α) :
    fetch t kind select key fallback = (((t.get? key).bind read).getD fallback,
      if hasWrongKind t key kind then [(SettingWarning.wrongKind key kind).text] else []) := by
  obtain rfl := funext hselect
  rw [fetch, hasWrongKind, SettingWarning.text]
  cases t.get? key with
  | none => rfl
  | some v =>
      have hv := hread v
      cases hvalue : select v with
      | none => simp [hvalue, ← hv]
      | some a => simp [hvalue, ← hv]

theorem fetchText_eq (fallback : Bytes) :
    fetchText t key fallback = (((t.get? key).bind Value.text?).getD fallback,
      if hasWrongKind t key .text then [(SettingWarning.wrongKind key .text).text] else []) :=
  fetch_eq t key (fun v => by cases v <;> rfl) (fun v => by cases v <;> rfl) fallback

theorem fetchInteger_eq (fallback : Int) :
    fetchInteger t key fallback = (((t.get? key).bind Value.integer?).getD fallback,
      if hasWrongKind t key .integer then [(SettingWarning.wrongKind key .integer).text] else []) :=
  fetch_eq t key (fun v => by cases v <;> rfl) (fun v => by cases v <;> rfl) fallback

theorem fetchBoolean_eq (fallback : Bool) :
    fetchBoolean t key fallback = (((t.get? key).bind Value.boolean?).getD fallback,
      if hasWrongKind t key .boolean then [(SettingWarning.wrongKind key .boolean).text] else []) :=
  fetch_eq t key (fun v => by cases v <;> rfl) (fun v => by cases v <;> rfl) fallback

end

theorem overrideInteger_eq (env : Environment) (layered : Int) :
    overrideInteger env Variable.context layered =
      (((env.get? Variable.context).bind (Decimal.leading? 64)).getD layered,
        if hasUnreadableContext env then [SettingWarning.unreadable.text] else []) := by
  rw [overrideInteger, hasUnreadableContext]
  cases env.get? Variable.context with
  | none => rfl
  | some v =>
      cases hread : Decimal.leading? 64 v with
      | none => simp [hread, SettingWarning.text]
      | some n => simp [hread]

theorem Choice.choose_eq (c : Choice) (word : Bytes) :
    choose c.words c.fallback c.key word = (c.settle word,
      if c.fallsBack word then [(SettingWarning.fellBack c word.toLower).text] else []) := by
  rw [choose, settle, fallsBack]
  cases (c.words.map utf8).contains word.toLower with
  | true => rfl
  | false => rfl

/-- The word of a choice is one of the few, whatever is asked for. -/
theorem Choice.settle_mem (c : Choice) (word : Bytes) : c.settle word ∈ c.words.map utf8 := by
  rw [settle]
  split
  · rename_i hword
    exact List.contains_iff_mem.mp hword
  · cases c <;> simp [words, fallback]

namespace Effective

/-- The settings and the warnings, by what is asked for. -/
theorem of_eq (t : Table) (env : Environment) :
    Effective.of t env =
      ({ language := Choice.language.settle (Choice.language.asked t env)
         context := normalizeContext (askedContext t env)
         newline := Choice.newline.settle (Choice.newline.asked t env)
         optimize := ((t.get? Key.optimize).bind Value.boolean?).getD false
         artifact := Choice.artifact.settle (Choice.artifact.asked t env)
         warnDeadEmits := ((t.get? Key.warnDeadEmits).bind Value.boolean?).getD false
         target := ((t.get? Key.target).bind Value.text?).getD []
         cpu := ((t.get? Key.cpu).bind Value.text?).getD []
         optLevel := clampLevel (askedLevel t) }, (SettingWarning.log t env).map (·.text)) := by
  have hlanguage := Choice.choose_eq .language
  have hnewline := Choice.choose_eq .newline
  have hartifact := Choice.choose_eq .artifact
  simp only [Choice.words, Choice.fallback, Choice.key] at hlanguage hnewline hartifact
  simp only [Effective.of, fetchText_eq, fetchInteger_eq, fetchBoolean_eq, overrideInteger_eq,
    hlanguage, hnewline, hartifact, ← Option.getD_or]
  refine Prod.ext rfl ?_
  simp only [SettingWarning.log, List.map_append, List.map_map]
  simp only [map_filter_eq_flatMap, Key.wanted, Choice.all, List.flatMap_cons, List.flatMap_nil,
    List.append_nil, List.append_assoc, apply_ite (List.map SettingWarning.text), List.map_cons,
    List.map_nil]
  rfl

theorem settled_of (t : Table) (env : Environment) : (Effective.of t env).1.Settled t env := by
  rw [of_eq]
  refine ⟨fun c => ?_, rfl, rfl, rfl, rfl, rfl, rfl⟩
  cases c with
  | language => rfl
  | newline => rfl
  | artifact => rfl

/-- Whatever is asked for, what it is brought to can be used. -/
theorem Settled.valid {s : Effective} {t : Table} {env : Environment} (h : s.Settled t env) :
    s.Valid := by
  have hchoice (c : Choice) : s.choice c ∈ c.words.map utf8 := by
    rw [h.choice]
    exact c.settle_mem _
  refine ⟨hchoice, ?_, ?_, ?_⟩
  · have hword : s.newline ∈ Choice.newline.words.map utf8 := hchoice .newline
    simp only [Choice.words, List.map_cons, List.map_nil, List.mem_cons, List.not_mem_nil,
      or_false] at hword
    rcases hword with hword | hword | hword
    · rw [hword]
      rfl
    · rw [hword]
      rfl
    · rw [hword]
      rfl
  · rw [h.context]
    split <;> omega
  · rw [h.optLevel]
    omega

end Effective

namespace SettingWarning

theorem nodup_log (t : Table) (env : Environment) : (log t env).Nodup := by
  have hwanted : Key.wanted.Nodup := by
    refine List.Nodup.of_map (·.1) ?_
    rw [Key.map_wanted]
    decide
  have hkinds : ((Key.wanted.filter fun e => hasWrongKind t e.1 e.2).map
      fun e => wrongKind e.1 e.2).Nodup := by
    refine (hwanted.filter _).map ?_
    intro e e' h
    injection h with hkey hkind
    exact Prod.ext hkey hkind
  have hunreadable : (if hasUnreadableContext env then [unreadable] else []).Nodup := by
    split <;> simp
  have hchoices : ((Choice.all.filter fun c => c.fallsBack (c.asked t env)).map
      fun c => fellBack c (c.asked t env).toLower).Nodup := by
    have hall : Choice.all.Nodup := by decide
    refine (hall.filter _).map ?_
    intro c c' h
    injection h
  rw [log, List.nodup_append', List.nodup_append']
  refine ⟨⟨hkinds, hunreadable, ?_⟩, hchoices, ?_⟩
  · intro w hw hw'
    obtain ⟨e, _, rfl⟩ := List.mem_map.mp hw
    split at hw' <;> simp at hw'
  · intro w hw hw'
    obtain ⟨c, _, rfl⟩ := List.mem_map.mp hw'
    rcases List.mem_append.mp hw with hw | hw
    · obtain ⟨e, _, he⟩ := List.mem_map.mp hw
      cases he
    · split at hw <;> simp at hw

theorem mem_log_iff (t : Table) (env : Environment) (w : SettingWarning) :
    w ∈ log t env ↔ w.Arises t env := by
  rw [log, List.mem_append, List.mem_append]
  cases w with
  | wrongKind key kind =>
      simp [Arises, hasWrongKind, Option.any_eq_true]
  | unreadable =>
      simp [Arises, hasUnreadableContext, Option.any_eq_true]
  | fellBack c word =>
      have hall : c ∈ Choice.all := by cases c <;> decide
      simp only [List.mem_map, List.mem_filter, reduceCtorEq, and_false, exists_false,
        List.mem_ite_nil_right, List.mem_cons, List.not_mem_nil, or_self, false_or,
        Choice.fallsBack, List.contains_eq_mem, Bool.not_eq_eq_eq_not, Bool.not_true,
        decide_eq_false_iff_not, fellBack.injEq, Arises]
      constructor
      · rintro ⟨_, ⟨_, hfree⟩, rfl, rfl⟩
        exact ⟨rfl, hfree⟩
      · rintro ⟨rfl, hfree⟩
        exact ⟨c, ⟨hall, hfree⟩, rfl, rfl⟩

end SettingWarning

/-- The effective settings follow the order of precedence and can be used as they are. Whoever
listens is told of each value that was passed over, once, and the settings do not depend on it. -/
theorem Effective.gather_settled (t : Table) (env : Environment) (warnings : Option (List Bytes)) :
    let r := Effective.gather t env warnings
    r.1.Settled t env ∧ r.1.Valid ∧ (∀ other, (Effective.gather t env other).1 = r.1) ∧
      ∃ ws : List SettingWarning, r.2 = warnings.map (· ++ ws.map (·.text)) ∧ ws.Nodup ∧
        ∀ w, w ∈ ws ↔ w.Arises t env := by
  intro r
  have hsettled : r.1.Settled t env := settled_of t env
  refine ⟨hsettled, hsettled.valid, fun _ => rfl, SettingWarning.log t env, ?_,
    SettingWarning.nodup_log t env, SettingWarning.mem_log_iff t env⟩
  have hlog : (Effective.of t env).2 = (SettingWarning.log t env).map (·.text) := by rw [of_eq]
  rw [← hlog]
  rfl

end Settings
end Linewise
