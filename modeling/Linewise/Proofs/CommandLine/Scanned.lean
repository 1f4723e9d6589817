import Linewise.Proofs.CommandLine.Contexts
/-!
Command lines, one occurrence of an option after the other. A command line splits in at most one way
into options with their values and positional words. What is read of one is told from the last
occurrence of each option: an option sets what it is for and nothing else.
-/
namespace Linewise

/-- The words that a switch is given by. -/
def Switch.words : Switch → List Bytes
  | .noConfig => [utf8 "--no-config"]
  | .warnDeadEmits true => [utf8 "-Wdead-emit"]
  | .warnDeadEmits false => [utf8 "-Wno-dead-emit"]
  | .verbose => [utf8 "-v", utf8 "--verbose"]
  | .level n => if n ≤ 3 then [utf8 "-O" ++ [0x30 + n]] else []

/-- An option as it occurs on a command line, with its value if it takes one. -/
inductive Occurrence where
  | valued (flag : ValueFlag) (value : Bytes)
  | alone (switch : Switch)
  deriving DecidableEq

/-- The words of a command line are these options and these positional words, each in order. -/
inductive Scanned : List Bytes → List Occurrence → List Bytes → Prop
  | done : Scanned [] [] []
  | valued (flag : ValueFlag) (value : Bytes) {args given positional}
      (h : Scanned args given positional) :
      Scanned (flag.word :: value :: args) (.valued flag value :: given) positional
  | alone {w s args given positional} (hw : w ∈ Switch.words s)
      (h : Scanned args given positional) : Scanned (w :: args) (.alone s :: given) positional
  | positional {w args given positional} (hw : IsPositional w)
      (h : Scanned args given positional) : Scanned (w :: args) given (w :: positional)

namespace Word

/-- What a word is, said by its spelling. -/
def Spells (w : Bytes) : Word → Prop
  | .valueFlag flag => flag.word = w
  | .setting s => w ∈ s.words
  | .positional => IsPositional w

theorem ofBytes_of_mem_words {s : Switch} {w : Bytes} (h : w ∈ s.words) :
    ofBytes w = .ok (.setting s) := by
  cases s with
  | noConfig =>
      obtain rfl := List.mem_singleton.mp h
      decide
  | warnDeadEmits on =>
      cases on with
      | false =>
          obtain rfl := List.mem_singleton.mp h
          decide
      | true =>
          obtain rfl := List.mem_singleton.mp h
          decide
  | verbose =>
      simp only [Switch.words, List.mem_cons, List.not_mem_nil, or_false] at h
      rcases h with rfl | rfl
      · decide
      · decide
  | level n =>
      simp only [Switch.words, List.mem_ite_nil_right, List.mem_singleton] at h
      obtain ⟨hn, rfl⟩ := h
      have hlevel : n = 0 ∨ n = 1 ∨ n = 2 ∨ n = 3 := by
        rw [UInt8.le_iff_toNat_le] at hn
        simp only [← UInt8.toNat_inj, UInt8.reduceToNat] at hn ⊢
        omega
      rcases hlevel with rfl | rfl | rfl | rfl
      · decide
      · decide
      · decide
      · decide

theorem spells_of_ofUnlisted {w : Bytes} {k : Word} (h : ofUnlisted w = .ok k) : k.Spells w := by
  unfold ofUnlisted at h
  split_ifs at h with hlevel hdash
  · obtain ⟨hlength, htake⟩ := hlevel
    split at h
    · rename_i d hd
      split_ifs at h with hrange
      cases h
      have hdigit : d - 0x30 ≤ 3 ∧ 0x30 + (d - 0x30) = d := by
        simp only [UInt8.le_iff_toNat_le, ← UInt8.toNat_inj, UInt8.toNat_add, UInt8.toNat_sub,
          UInt8.reduceToNat] at hrange ⊢
        omega
      have hlast : w.drop 2 = [d] := by
        obtain ⟨hlt, hget⟩ := List.getElem?_eq_some_iff.mp hd
        rw [List.drop_eq_getElem_cons hlt, hget, List.drop_eq_nil_of_le (by omega)]
      simp only [Spells, Switch.words, if_pos hdigit.1, hdigit.2, List.mem_singleton]
      rw [← hlast, ← htake, List.take_append_drop]
    · cases h
  · cases h
    exact (isPositional_iff w).mpr hdash

theorem spells_of_ofWord? {w : Bytes} {s : Switch} (h : Switch.ofWord? w = some s) :
    w ∈ s.words := by
  unfold Switch.ofWord? at h
  split_ifs at h with hconfig hwarn hquiet hverbose
  · cases h
    exact List.mem_singleton.mpr hconfig
  · cases h
    exact List.mem_singleton.mpr hwarn
  · cases h
    exact List.mem_singleton.mpr hquiet
  · cases h
    simpa [Switch.words] using hverbose

theorem ofBytes_eq_ok_iff (w : Bytes) (k : Word) : ofBytes w = .ok k ↔ k.Spells w := by
  constructor
  · intro h
    unfold ofBytes at h
    split at h
    · rename_i flag hflag
      cases h
      have hword : decide (flag.word = w) = true :=
        List.find?_some (p := fun f : ValueFlag => decide (f.word = w)) hflag
      exact (of_decide_eq_true hword : flag.word = w)
    · split at h
      · rename_i s hs
        cases h
        exact spells_of_ofWord? hs
      · exact spells_of_ofUnlisted h
  · intro h
    cases k with
    | valueFlag flag =>
        obtain rfl : flag.word = w := h
        exact ofBytes_word flag
    | setting s => exact ofBytes_of_mem_words h
    | positional => exact ofBytes_positional h

end Word

namespace Scanned
variable {args : List Bytes} {given given' : List Occurrence} {positional positional' : List Bytes}

/-- The first word tells what a command line starts with. -/
theorem cons {w : Bytes} (h : Scanned (w :: args) given positional) :
    (∃ flag value args' given', Word.ofBytes w = .ok (.valueFlag flag) ∧ args = value :: args' ∧
        given = .valued flag value :: given' ∧ Scanned args' given' positional) ∨
      (∃ s given', Word.ofBytes w = .ok (.setting s) ∧ given = .alone s :: given' ∧
        Scanned args given' positional) ∨
      ∃ positional', Word.ofBytes w = .ok .positional ∧ positional = w :: positional' ∧
        Scanned args given positional' := by
  cases h with
  | valued flag value h => exact .inl ⟨flag, value, _, _, Word.ofBytes_word flag, rfl, rfl, h⟩
  | alone hw h => exact .inr (.inl ⟨_, _, Word.ofBytes_of_mem_words hw, rfl, h⟩)
  | positional hw h => exact .inr (.inr ⟨_, Word.ofBytes_positional hw, rfl, h⟩)

/-- A command line splits in one way. -/
theorem unique (h : Scanned args given positional) (h' : Scanned args given' positional') :
    given' = given ∧ positional' = positional := by
  induction h generalizing given' positional' with
  | done =>
      cases h'
      exact ⟨rfl, rfl⟩
  | valued flag value h ih =>
      have hw := Word.ofBytes_word flag
      rcases h'.cons with ⟨_, _, _, _, hflag, hargs, rfl, hrest⟩ | ⟨_, _, hs, _⟩ | ⟨_, hp, _⟩
      · obtain ⟨rfl, rfl⟩ := List.cons.inj hargs
        obtain ⟨rfl, rfl⟩ := ih hrest
        cases hw.symm.trans hflag
        exact ⟨rfl, rfl⟩
      · cases hw.symm.trans hs
      · cases hw.symm.trans hp
  | alone hw h ih =>
      have hw := Word.ofBytes_of_mem_words hw
      rcases h'.cons with ⟨_, _, _, _, hflag, _⟩ | ⟨_, _, hs, rfl, hrest⟩ | ⟨_, hp, _⟩
      · cases hw.symm.trans hflag
      · obtain ⟨rfl, rfl⟩ := ih hrest
        cases hw.symm.trans hs
        exact ⟨rfl, rfl⟩
      · cases hw.symm.trans hp
  | positional hw h ih =>
      have hw := Word.ofBytes_positional hw
      rcases h'.cons with ⟨_, _, _, _, hflag, _⟩ | ⟨_, _, hs, _⟩ | ⟨_, hp, rfl, hrest⟩
      · cases hw.symm.trans hflag
      · cases hw.symm.trans hs
      · obtain ⟨rfl, rfl⟩ := ih hrest
        exact ⟨rfl, rfl⟩

/-- A switch that occurs is spelled by a word. -/
theorem exists_word (h : Scanned args given positional) {s : Switch}
    (hs : Occurrence.alone s ∈ given) : ∃ w ∈ args, w ∈ s.words := by
  induction h with
  | done => cases hs
  | valued flag value h ih =>
      obtain ⟨w, hw, hspelled⟩ := ih (by simpa using hs)
      exact ⟨w, List.mem_cons_of_mem _ (List.mem_cons_of_mem _ hw), hspelled⟩
  | alone hw h ih =>
      rcases List.mem_cons.mp hs with heq | hs
      · cases heq
        exact ⟨_, List.mem_cons_self, hw⟩
      · obtain ⟨w, hmem, hspelled⟩ := ih hs
        exact ⟨w, List.mem_cons_of_mem _ hmem, hspelled⟩
  | positional hw h ih =>
      obtain ⟨w, hmem, hspelled⟩ := ih hs
      exact ⟨w, List.mem_cons_of_mem _ hmem, hspelled⟩

end Scanned

namespace Occurrence

/-- The value that an option is given here. -/
def value? (flag : ValueFlag) : Occurrence → Option Bytes
  | .valued f v => if f = flag then some v else none
  | .alone _ => none

def level? : Occurrence → Option UInt8
  | .alone (.level n) => some n
  | _ => none

def warnDeadEmits? : Occurrence → Option Bool
  | .alone (.warnDeadEmits on) => some on
  | _ => none

def isNegative : Occurrence → Bool
  | .valued .context v => (Decimal.leading? 32 v).any (· < 0)
  | _ => false

/-- The values that an option is given, one after the other. -/
def values (flag : ValueFlag) (given : List Occurrence) : List Bytes :=
  given.filterMap (·.value? flag)

/-- How often a context is negative. -/
def negatives (given : List Occurrence) : Nat := given.countP (·.isNegative)

end Occurrence
open Occurrence

/-! The words that options take as their values. -/

def Language.names : Language → List Bytes
  | .korean => [utf8 "ko"]
  | .english => [utf8 "en"]

def Newline.names : Newline → List Bytes
  | .crlf => [utf8 "crlf"]
  | .lf => [utf8 "lf"]
  | .universal => [utf8 "universal", utf8 "auto"]

def Artifact.names : Artifact → List Bytes
  | .listing => [utf8 "qir"]
  | .assembly => [utf8 "llvm-ir"]
  | .object => [utf8 "object", utf8 "obj"]

def DumpKind.names : DumpKind → List Bytes
  | .none => []
  | .statements => [utf8 "stmts"]
  | .listing => [utf8 "qir"]

/-- The warning of a negative context. -/
def negativeContext : Bytes := utf8 "--context must be >= 0, using 0"

namespace ValueFlag

/-- What giving an option a value makes of the options: it sets one of them, and a negative context
is warned of. -/
inductive Sets (o : Options) (v : Bytes) : ValueFlag → Options → Prop
  | output : Sets o v .output { o with output := v }
  | language {l} (h : v ∈ Language.names l) : Sets o v .language { o with language := some l }
  | context {n} (hn : Decimal.leading? 32 v = some n) : Sets o v .context
      { o with
        context := some (UInt32.ofNat n.toNat)
        warnings := o.warnings ++ if n < 0 then [negativeContext] else [] }
  | newline {rule} (h : v ∈ Newline.names rule) : Sets o v .newline { o with newline := some rule }
  | artifact {a} (h : v ∈ Artifact.names a) : Sets o v .artifact { o with artifact := some a }
  | dump {k} (h : v ∈ DumpKind.names k) : Sets o v .dump { o with dump := k }
  | target : Sets o v .target { o with target := some v }
  | cpu : Sets o v .cpu { o with cpu := some v }
  | config : Sets o v .config { o with config := some v }

theorem sets_of_apply {o o' : Options} {v : Bytes} {flag : ValueFlag}
    (h : flag.apply o v = .ok o') : flag.Sets o v o' := by
  cases flag with
  | output =>
      cases h
      exact .output
  | language =>
      simp only [apply] at h
      split_ifs at h with hko hen
      · cases h
        exact .language (List.mem_singleton.mpr hko)
      · cases h
        exact .language (List.mem_singleton.mpr hen)
  | context =>
      simp only [apply] at h
      split at h
      · cases h
      · rename_i n hn
        have hsets := Sets.context (o := o) hn
        split_ifs at h with hneg
        · cases h
          rw [if_pos hneg, Int.toNat_of_nonpos (Int.le_of_lt hneg)] at hsets
          exact hsets
        · cases h
          rw [if_neg hneg, List.append_nil] at hsets
          exact hsets
  | newline =>
      simp only [apply] at h
      split at h
      · rename_i rule hrule
        cases h
        refine .newline ?_
        unfold Newline.ofName? at hrule
        split_ifs at hrule with hcrlf hlf huniversal
        · cases hrule
          exact List.mem_singleton.mpr hcrlf
        · cases hrule
          exact List.mem_singleton.mpr hlf
        · cases hrule
          simpa [Newline.names] using huniversal
      · cases h
  | artifact =>
      simp only [apply] at h
      split_ifs at h with hqir hir hobject
      · cases h
        exact .artifact (List.mem_singleton.mpr hqir)
      · cases h
        exact .artifact (List.mem_singleton.mpr hir)
      · cases h
        exact .artifact (by simpa [Artifact.names] using hobject)
  | dump =>
      simp only [apply] at h
      split_ifs at h with hstatements hlisting
      · cases h
        exact .dump (List.mem_singleton.mpr hstatements)
      · cases h
        exact .dump (List.mem_singleton.mpr hlisting)
  | target =>
      cases h
      exact .target
  | cpu =>
      cases h
      exact .cpu
  | config =>
      cases h
      exact .config

/-- Of the options this one is what it was set to last, if it was set. -/
def Shown (o : Options) (last : Option Bytes) : ValueFlag → Prop
  | .output => o.output = last.getD []
  | .language => Option.Rel (fun l v => v ∈ l.names) o.language last
  | .context =>
    Option.Rel (fun c v => ∃ n, Decimal.Leads v n ∧ InWord n ∧ c = UInt32.ofNat n.toNat)
      o.context last
  | .newline => Option.Rel (fun rule v => v ∈ rule.names) o.newline last
  | .artifact => Option.Rel (fun a v => v ∈ a.names) o.artifact last
  | .dump => (o.dump = .none ∧ last = none) ∨ ∃ v ∈ last, v ∈ o.dump.names
  | .target => o.target = last
  | .cpu => o.cpu = last
  | .config => o.config = last

section
variable {o o' : Options} {v : Bytes} {flag : ValueFlag}

theorem Sets.shown (h : flag.Sets o v o') : flag.Shown o' (some v) := by
  cases h with
  | output => rfl
  | language h => exact .some h
  | context hn =>
      obtain ⟨hleads, hfits⟩ := (Decimal.leading?_eq_some_iff v).mp hn
      exact .some ⟨_, hleads, (fits_iff_inWord _).mp hfits, rfl⟩
  | newline h => exact .some h
  | artifact h => exact .some h
  | dump h => exact .inr ⟨v, rfl, h⟩
  | target => rfl
  | cpu => rfl
  | config => rfl

/-- Setting one option leaves the others as they are. -/
theorem Sets.frame (h : flag.Sets o v o') {other : ValueFlag} (hother : other ≠ flag)
    (last : Option Bytes) : other.Shown o' last ↔ other.Shown o last := by
  cases h <;> cases other <;> first | exact Iff.rfl | exact absurd rfl hother

/-- It also leaves what is given without a value, and a negative context is warned of. -/
theorem Sets.rest (h : flag.Sets o v o') :
    o'.optLevel = o.optLevel ∧ o'.warnDeadEmits = o.warnDeadEmits ∧ o'.verbose = o.verbose ∧
      o'.noConfig = o.noConfig ∧
      o'.warnings = o.warnings ++ List.replicate (negatives [.valued flag v]) negativeContext := by
  cases h with
  | @context n hn =>
      refine ⟨rfl, rfl, rfl, rfl, ?_⟩
      by_cases hneg : n < 0
      · simp [negatives, isNegative, hn, hneg]
      · simp [negatives, isNegative, hn, hneg]
  | _ => simp [negatives, isNegative]

/-- A switch leaves all that is given by a value. -/
theorem shown_switch (s : Switch) (last : Option Bytes) :
    flag.Shown (s.apply o) last ↔ flag.Shown o last := by
  cases s <;> cases flag <;> exact Iff.rfl

end

theorem shown_error (o : Options) (e : Option OptionError) (flag : ValueFlag)
    (last : Option Bytes) : flag.Shown { o with error := e } last ↔ flag.Shown o last := by
  cases flag <;> exact Iff.rfl

/-- The mode, the input path and the warnings show in none of these options, and an output path
only in its own. -/
theorem shown_taken (o : Options) (mode : Mode) (input output : Bytes) (warnings : List Bytes)
    {flag : ValueFlag} (hflag : flag ≠ .output) (last : Option Bytes) :
    flag.Shown { o with mode, input, output, warnings } last ↔ flag.Shown o last := by
  cases flag <;> first | exact Iff.rfl | exact absurd rfl hflag

end ValueFlag

/-- The options are what was given last, and every negative context is warned of. -/
structure Options.Shows (o : Options) (given : List Occurrence) : Prop where
  value : ∀ flag : ValueFlag, flag.Shown o (values flag given).getLast?
  level : o.optLevel = (given.filterMap (·.level?)).getLast?
  warnDeadEmits : o.warnDeadEmits = (given.filterMap (·.warnDeadEmits?)).getLast?
  verbose : o.verbose = true ↔ .alone .verbose ∈ given
  noConfig : o.noConfig = true ↔ .alone .noConfig ∈ given
  warnings : o.warnings = List.replicate (negatives given) negativeContext

namespace Options

theorem shows_nil : ({} : Options).Shows [] where
  value flag := by
    cases flag with
    | output | target | cpu | config => rfl
    | language | context | newline | artifact => exact .none
    | dump => exact .inl ⟨rfl, rfl⟩
  level := rfl
  warnDeadEmits := rfl
  verbose := by simp
  noConfig := by simp
  warnings := rfl

theorem Shows.value_step {o o' : Options} {given : List Occurrence} {flag : ValueFlag} {v : Bytes}
    (h : o.Shows given) (hsets : flag.Sets o v o') : o'.Shows (given ++ [.valued flag v]) := by
  obtain ⟨hlevel, hwarn, hverbose, hconfig, hwarnings⟩ := hsets.rest
  refine ⟨fun other => ?_, ?_, ?_, ?_, ?_, ?_⟩
  · by_cases hother : other = flag
    · subst hother
      simpa [values, value?] using hsets.shown
    · rw [hsets.frame hother]
      simpa [values, value?, Ne.symm hother] using h.value other
  · simpa [hlevel, level?] using h.level
  · simpa [hwarn, warnDeadEmits?] using h.warnDeadEmits
  · simpa [hverbose] using h.verbose
  · simpa [hconfig] using h.noConfig
  · rw [hwarnings, h.warnings, List.replicate_append_replicate]
    simp only [negatives, List.countP_append]

theorem Shows.switch_step {o : Options} {given : List Occurrence} (h : o.Shows given)
    (s : Switch) : (s.apply o).Shows (given ++ [.alone s]) := by
  refine ⟨fun flag => ?_, ?_, ?_, ?_, ?_, ?_⟩
  · have hvalue := h.value flag
    rw [← ValueFlag.shown_switch s] at hvalue
    simpa [values, value?] using hvalue
  · cases s with
    | level n => simp [Switch.apply, level?]
    | _ => simpa [Switch.apply, level?] using h.level
  · cases s with
    | warnDeadEmits on => simp [Switch.apply, warnDeadEmits?]
    | _ => simpa [Switch.apply, warnDeadEmits?] using h.warnDeadEmits
  · cases s with
    | verbose => simp [Switch.apply]
    | _ => simpa [Switch.apply] using h.verbose
  · cases s with
    | noConfig => simp [Switch.apply]
    | _ => simpa [Switch.apply] using h.noConfig
  · have hsame : (s.apply o).warnings = o.warnings := by cases s <;> rfl
    simpa [hsame, negatives, isNegative] using h.warnings

/-- Whatever was read before, reading on without a fault splits the words that are left and shows
what they give. A flag whose value is pending stands for its word. -/
theorem Shows.readWords {o : Options} {given : List Occurrence} (h : o.Shows given)
    (before : List Bytes) (pending : Option ValueFlag) (args : List Bytes)
    (herror : (o.readWords before pending args).1.error = none) :
    ∃ given' positional,
      Scanned ((pending.map ValueFlag.word).toList ++ args) given' positional ∧
        (o.readWords before pending args).2 = before ++ positional ∧
        (o.readWords before pending args).1.Shows (given ++ given') := by
  fun_induction Options.readWords o before pending args generalizing given with
  | case1 o before pending =>
      obtain rfl : pending = none := Option.map_eq_none_iff.mp herror
      refine ⟨[], [], .done, (List.append_nil before).symm, ?_⟩
      rw [List.append_nil]
      exact { h with value := fun flag => (flag.shown_error _ _ _).mpr (h.value flag) }
  | case2 o before w rest flag e happly => cases herror
  | case3 o before w rest flag o' happly ih =>
      obtain ⟨given', positional, hscanned, hbefore, hshows⟩ :=
        ih (h.value_step (ValueFlag.sets_of_apply happly)) herror
      exact ⟨.valued flag w :: given', positional, .valued flag w hscanned, hbefore,
        by simpa using hshows⟩
  | case4 o before w rest e hword => cases herror
  | case5 o before w rest hword ih =>
      obtain ⟨given', positional, hscanned, hbefore, hshows⟩ := ih h herror
      have hw : IsPositional w := (Word.ofBytes_eq_ok_iff w .positional).mp hword
      exact ⟨given', w :: positional, .positional hw hscanned, by simpa using hbefore, hshows⟩
  | case6 o before w rest flag hword ih =>
      obtain ⟨given', positional, hscanned, hbefore, hshows⟩ := ih h herror
      obtain rfl : flag.word = w := (Word.ofBytes_eq_ok_iff w (.valueFlag flag)).mp hword
      exact ⟨given', positional, hscanned, hbefore, hshows⟩
  | case7 o before w rest s hword ih =>
      obtain ⟨given', positional, hscanned, hbefore, hshows⟩ := ih (h.switch_step s) herror
      have hw : w ∈ s.words := (Word.ofBytes_eq_ok_iff w (.setting s)).mp hword
      exact ⟨.alone s :: given', positional, .alone hw hscanned, hbefore, by simpa using hshows⟩

end Options

end Linewise
