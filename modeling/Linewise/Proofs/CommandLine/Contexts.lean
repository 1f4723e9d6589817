import Linewise.Proofs.CommandLine.Interleaved
import Linewise.Proofs.Numerals
import Linewise.Proofs.Settings.Integers
import Linewise.Proofs.Settings.NoConfig
import Linewise.Proofs.Settings.Normalized
/-!
Contexts that are given as text, by an option or by a variable. A context should be taken exactly if
the text is a numeral in range. Both ways of giving one read the start of the text only, so white
space before the numeral and anything behind it are let through, and this is the only exception.
-/
namespace Linewise

namespace Decimal

theorem Leads.unique {s : Bytes} {m n : Int} (hm : Leads s m) (hn : Leads s n) : m = n := by
  -- Some number of bits holds both.
  let bits := m.natAbs + n.natAbs + 1
  have hbits : (m.natAbs + n.natAbs : Int) < 2 ^ (bits - 1) := by
    exact_mod_cast Nat.lt_two_pow_self
  have hfits : fits bits m = true ∧ fits bits n = true := by
    simp only [fits, Bool.and_eq_true, decide_eq_true_eq, Int.pow_eq]
    omega
  have hread := (leading?_eq_some_iff s).mpr ⟨hm, hfits.1⟩
  rw [(leading?_eq_some_iff s).mpr ⟨hn, hfits.2⟩] at hread
  exact (Option.some.inj hread).symm

end Decimal

/-- The integers that a context on the command line may be. -/
def InWord (n : Int) : Prop := -2 ^ 31 ≤ n ∧ n < 2 ^ 31

instance (n : Int) : Decidable (InWord n) :=
  inferInstanceAs (Decidable (-2 ^ 31 ≤ n ∧ n < 2 ^ 31))

theorem InWord.inRange {n : Int} (h : InWord n) : Settings.InRange n := by
  simp only [InWord, Settings.InRange] at *
  omega

theorem fits_iff_inWord (n : Int) : Decimal.fits 32 n = true ↔ InWord n := by
  rw [Decimal.fits, Bool.and_eq_true, decide_eq_true_iff, decide_eq_true_iff]
  rfl

/-- A command line that asks for a context is accepted exactly if its text denotes an integer of 32
bits, and the context is that integer, or zero if it is negative. What the text denotes is a
parameter. -/
def Options.ReadsContext (input v : Bytes) (denotes : Int → Prop) : Prop :=
  let o := Options.read [utf8 "interpret", input, utf8 "--context", v]
  ((o.error = none ∧ o.mode = .interpret) ↔ ∃ n, denotes n ∧ InWord n) ∧
    ∀ n, denotes n → InWord n → o.context = some (UInt32.ofNat n.toNat)

/-- Setting the variable replaces the context by the integer of 64 bits that its text denotes,
before the context is brought into range, and changes nothing if there is none, save that whoever
listens is told once. -/
def Settings.ReadsContext (t : Table) (env : Environment) (warnings : Option (List Bytes))
    (v : Bytes) (denotes : Int → Prop) : Prop :=
  let layered := Effective.gather t (env.without [Variable.context]) warnings
  let s := Effective.gather t ((Variable.context, v) :: env) warnings
  (∀ n, denotes n → InRange n → s = ({ layered.1 with context := normalizeContext n }, layered.2)) ∧
    ((¬ ∃ n, denotes n ∧ InRange n) → s.1 = layered.1 ∧
      ∃ front back, layered.2 = warnings.map (· ++ (front ++ back)) ∧
        s.2 = warnings.map (· ++ (front ++ SettingWarning.unreadable.text :: back)))

/-- Contexts are read off a text by what it denotes, wherever it is given. -/
structure ContextsRead (v : Bytes) (denotes : Int → Prop) : Prop where
  option : ∀ input, IsPositional input → Options.ReadsContext input v denotes
  environment : ∀ t env warnings, Settings.ReadsContext t env warnings v denotes

/-- What a command line that asks for a context amounts to. -/
theorem Options.read_context {input v : Bytes} (hinput : IsPositional input) (hv : ¬ IsRequest v) :
    Options.read [utf8 "interpret", input, utf8 "--context", v] =
      match Decimal.leading? 32 v with
      | none => { error := some (.badContext v) }
      | some n =>
        { mode := .interpret
          input := input
          context := some (UInt32.ofNat n.toNat)
          warnings := if n < 0 then [utf8 "--context must be >= 0, using 0"] else [] } := by
  have hmode : IsPositional (utf8 "interpret") := by decide
  have hline : Interleaved [[utf8 "--context", v]] [utf8 "interpret", input]
      [utf8 "interpret", input, utf8 "--context", v] :=
    .positional hmode (.positional hinput (.option (.valued .context v) .done))
  have hrequest : ∀ w ∈ [[utf8 "--context", v]].flatten ++ [utf8 "interpret", input],
      ¬ IsRequest w := by
    simp only [List.flatten_cons, List.flatten_nil, List.append_nil, List.cons_append,
      List.nil_append, List.forall_mem_cons]
    exact ⟨by decide, hv, by decide, hinput.not_isRequest, by simp⟩
  rw [hline.read_eq (by simp) hrequest]
  have hflag := Word.ofBytes_word .context
  rw [ValueFlag.word] at hflag
  have hword : Mode.ofWord? (utf8 "interpret") = some .interpret := by decide
  simp only [List.flatten_cons, List.flatten_nil, List.append_nil, readWords, hflag,
    ValueFlag.apply]
  cases Decimal.leading? 32 v with
  | none => rfl
  | some n =>
      by_cases hn : n < 0
      · simp [hn, takePositional, hword, checkMode, Mode.compiles,
          Int.toNat_of_nonpos (Int.le_of_lt hn)]
      · simp [hn, takePositional, hword, checkMode, Mode.compiles]

theorem leading?_of_request {v : Bytes} (h : IsRequest v) : Decimal.leading? 32 v = none := by
  simp only [IsRequest, List.mem_cons, List.not_mem_nil, or_false] at h
  rcases h with rfl | rfl | rfl
  · decide
  · decide
  · decide

namespace Environment

theorem get?_cons_self (env : Environment) (name : Bytes) {v : Bytes} (hv : v ≠ []) :
    get? ((name, v) :: env) name = some v := by
  simp [get?, Option.filter, hv]

theorem get?_cons_of_ne (env : Environment) {name other : Bytes} (v : Bytes) (h : other ≠ name) :
    get? ((name, v) :: env) other = (env.without [name]).get? other := by
  rw [get?_without_of_not_mem env (by simpa using h), get?,
    List.find?_cons_of_neg (by simpa using h.symm),
    get?]

end Environment

namespace Settings

/-- Setting the variable of the context leaves what is asked for otherwise. -/
theorem Choice.asked_cons (c : Choice) (t : Table) (env : Environment) (v : Bytes) :
    c.asked t ((Variable.context, v) :: env) = c.asked t (env.without [Variable.context]) := by
  have hlanguage := env.get?_cons_of_ne v (by decide : Variable.language ≠ Variable.context)
  have hnewline := env.get?_cons_of_ne v (by decide : Variable.newline ≠ Variable.context)
  cases c with
  | language => simp only [asked, override?, Option.bind_some, hlanguage]
  | newline => simp only [asked, override?, Option.bind_some, hnewline]
  | artifact => rfl

section
variable (t : Table) (env : Environment) {v : Bytes} (hne : v ≠ [])
include hne

theorem Effective.of_cons_some {n : Int} (h : Decimal.leading? 64 v = some n) :
    let layered := Effective.of t (env.without [Variable.context])
    Effective.of t ((Variable.context, v) :: env) =
      ({ layered.1 with context := normalizeContext n }, layered.2) := by
  have hset := env.get?_cons_self Variable.context hne
  have hunset := env.get?_without_of_mem (List.mem_singleton_self Variable.context)
  simp only [Effective.of_eq, Choice.asked_cons, askedContext, SettingWarning.log,
    hasUnreadableContext, hset, hunset]
  simp [h]

theorem Effective.of_cons_none (h : Decimal.leading? 64 v = none) :
    let layered := Effective.of t (env.without [Variable.context])
    let s := Effective.of t ((Variable.context, v) :: env)
    s.1 = layered.1 ∧ ∃ front back, layered.2 = front ++ back ∧
      s.2 = front ++ SettingWarning.unreadable.text :: back := by
  have hset := env.get?_cons_self Variable.context hne
  have hunset := env.get?_without_of_mem (List.mem_singleton_self Variable.context)
  simp only [Effective.of_eq, Choice.asked_cons, askedContext, SettingWarning.log,
    hasUnreadableContext, hset, hunset, Option.bind_some, h, Option.bind_none, Option.any_some,
    Option.any_none, Option.isNone_none, if_true, Bool.false_eq_true, if_false, List.append_nil,
    List.map_append, List.map_cons, List.map_nil, List.append_assoc]
  exact ⟨trivial, _, _, rfl, rfl⟩

end
end Settings

/-- Only what a text denotes in range matters. -/
theorem ContextsRead.congr {v : Bytes} {denotes denotes' : Int → Prop}
    (h : ContextsRead v denotes)
    (hsame : ∀ n, Settings.InRange n → (denotes' n ↔ denotes n)) : ContextsRead v denotes' where
  option input hinput := by
    have hword (n : Int) : denotes' n ∧ InWord n ↔ denotes n ∧ InWord n :=
      and_congr_left fun hn => hsame n hn.inRange
    have hoption := h.option input hinput
    simp only [Options.ReadsContext, ← and_imp, hword] at hoption ⊢
    exact hoption
  environment t env warnings := by
    have hrange (n : Int) : denotes' n ∧ Settings.InRange n ↔ denotes n ∧ Settings.InRange n :=
      and_congr_left (hsame n)
    have henvironment := h.environment t env warnings
    simp only [Settings.ReadsContext, ← and_imp, hrange] at henvironment ⊢
    exact henvironment

/-- White space before a numeral and what stands behind it go unnoticed, wherever the context is
given. -/
theorem contextsRead_leads {v : Bytes} (hne : v ≠ []) : ContextsRead v (Decimal.Leads v) where
  option input hinput := by
    have hread (n : Int) : Decimal.Leads v n ∧ InWord n ↔ Decimal.leading? 32 v = some n := by
      rw [Decimal.leading?_eq_some_iff, fits_iff_inWord]
    simp only [Options.ReadsContext, hread, ← and_imp]
    by_cases hv : IsRequest v
    · have hmem : v ∈ [utf8 "interpret", input, utf8 "--context", v] := by simp
      rw [leading?_of_request hv]
      rcases Options.read_of_request hmem hv with heq | heq
      · simp [heq]
      · simp [heq]
    · rw [Options.read_context hinput hv]
      cases Decimal.leading? 32 v with
      | none => simp
      | some n => simp
  environment t env warnings := by
    have hread (n : Int) :
        Decimal.Leads v n ∧ Settings.InRange n ↔ Decimal.leading? 64 v = some n := by
      rw [Decimal.leading?_eq_some_iff, Settings.fits_iff]
    simp only [Settings.ReadsContext, hread, ← and_imp, Settings.Effective.gather]
    cases hleading : Decimal.leading? 64 v with
    | none =>
        obtain ⟨hsettings, front, back, hlayered, hset⟩ :=
          Settings.Effective.of_cons_none t env hne hleading
        refine ⟨by simp, fun _ => ⟨hsettings, front, back, ?_, ?_⟩⟩
        · rw [hlayered]
        · rw [hset]
    | some n =>
        rw [Settings.Effective.of_cons_some t env hne hleading]
        simp

/-- Numerals in range are taken as contexts, and nothing else is exactly if the text does not lead
with a numeral in range that it goes beyond. As it is, the numeral at the start counts. -/
theorem contextsRead_signed_iff {v : Bytes} (hne : v ≠ []) :
    (ContextsRead v (Decimal.Signed v) ↔
        ∀ n, Settings.InRange n → Decimal.Leads v n → Decimal.Signed v n) ∧
      ContextsRead v (Decimal.Leads v) := by
  have hleads := contextsRead_leads hne
  refine ⟨⟨fun hsigned n hrange hn => ?_, fun hexact => ?_⟩, hleads⟩
  · -- With nothing configured, the variable is either read or warned of.
    by_contra hnot
    have hnone : ¬ ∃ m, Decimal.Signed v m ∧ Settings.InRange m := by
      rintro ⟨m, hm, -⟩
      exact hnot (hm.leads.unique hn ▸ hm)
    obtain ⟨-, front, back, hlayered, hwarned⟩ :=
      (hsigned.environment [] [] (some [])).2 hnone
    have hset := (hleads.environment [] [] (some [])).1 n hn hrange
    rw [hset, hlayered] at hwarned
    have hlength := congrArg List.length (Option.some.inj hwarned)
    simp at hlength
  · exact hleads.congr fun n hrange => ⟨fun h => h.leads, hexact n hrange⟩

/-- A sign and leading zeros belong to the numeral. -/
theorem contextsRead_signed_iff_below_zero :
    utf8 "-007" ≠ [] ∧ ContextsRead (utf8 "-007") (Decimal.Signed (utf8 "-007")) := by
  have hne : utf8 "-007" ≠ [] := by decide
  have hdigits : Decimal.Digits (utf8 "007") := by decide
  have hsigned : Decimal.Signed (utf8 "-007") (-Decimal.number (utf8 "007")) := .minus hdigits
  refine ⟨hne, (contextsRead_signed_iff hne).1.mpr ?_⟩
  intro n _ hn
  exact hn.unique hsigned.leads ▸ hsigned

/-- What stands behind the digits is let through by the option and by the variable. -/
theorem context_past_numeral :
    let v := utf8 "5x"
    let o := Options.read [utf8 "interpret", utf8 "a.qs", utf8 "--context", v]
    (o.error = none ∧ o.mode = .interpret ∧ o.context = some 5) ∧
      Settings.Effective.gather [] [(Settings.Variable.context, v)] (some []) =
        ({ context := 5 }, some []) ∧
      ∀ n, ¬ Decimal.Signed v n := by
  intro v o
  refine ⟨by decide +kernel, by decide +kernel, ?_⟩
  intro n hn
  have hfive : Decimal.leading? 64 v = some 5 := by decide +kernel
  obtain rfl := hn.leads.unique ((Decimal.leading?_eq_some_iff v).mp hfive).1
  have hwhole : Decimal.whole? 64 v = some 5 :=
    (Decimal.whole?_eq_some_iff v).mpr ⟨hn, by decide, by decide⟩
  exact absurd hwhole (by decide +kernel)

end Linewise
