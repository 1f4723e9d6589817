import Linewise.Proofs.Settings.Grammar
/-!
Lines with comments. Two scanners decide where a string ends: the one that looks for the comment and
the one that reads the value. On a line that spells an entry they agree, whatever bytes the string
holds, so the entry is read as if the comment and the blanks around it were not there.
-/
namespace Linewise.Settings

/-- What may follow an entry on its line. -/
inductive Remainder : Bytes → Prop
  | blanks {s} : Blanks s → Remainder s
  | comment {s text} : Blanks s → Remainder (s ++ Byte.hash :: text)

/-- From one state to the other the scanner for comments goes over this text and finds none. -/
def Skips (q : Quoting) (s : Bytes) (q' : Quoting) : Prop :=
  ∀ rest, uncommentedFrom q (s ++ rest) = s ++ uncommentedFrom q' rest

section
variable {q q' q'' : Quoting} {s t : Bytes}

theorem skips_nil (q : Quoting) : Skips q [] q := fun _ => rfl

theorem Skips.append (hs : Skips q s q') (ht : Skips q' t q'') : Skips q (s ++ t) q'' := by
  intro rest
  rw [List.append_assoc, hs, ht, List.append_assoc]

theorem skips_byte {b : UInt8} (h : q = .outside → b ≠ Byte.hash) : Skips q [b] (q.next b) := by
  intro rest
  have hnot : ¬ (q = .outside ∧ b = Byte.hash) := fun hcut => h hcut.1 hcut.2
  rw [List.singleton_append, uncommentedFrom, if_neg hnot]
  rfl

/-- Without quotes and hashes there is nothing to see for the scanner. -/
theorem skips_plain (hquote : Byte.quote ∉ s) (hhash : Byte.hash ∉ s) :
    Skips .outside s .outside := by
  induction s with
  | nil => exact skips_nil _
  | cons b s ih =>
      rw [List.mem_cons, not_or] at hquote hhash
      have hb : Skips .outside [b] (Quoting.outside.next b) := skips_byte fun _ => Ne.symm hhash.1
      rw [Quoting.next, if_neg (Ne.symm hquote.1)] at hb
      exact hb.append (ih hquote.2 hhash.2)

/-- A spelled byte keeps the scanner inside the string. -/
theorem ByteSpelled.skips {w : Bytes} {b : UInt8} (h : ByteSpelled w b) :
    Skips .inside w .inside := by
  have hescape (letter : UInt8) : Skips .inside [Byte.backslash, letter] .inside := by
    have hback : Skips .inside [Byte.backslash] .hidden := skips_byte nofun
    have hletter : Skips .hidden [letter] .inside := skips_byte nofun
    exact hback.append hletter
  cases h with
  | plain hquote hbackslash =>
      have hb : Skips .inside [b] (Quoting.inside.next b) := skips_byte nofun
      rwa [Quoting.next, if_neg hbackslash, if_neg hquote] at hb
  | backslash | quote | lf | tab => exact hescape _

theorem StringSpelled.skips {e s : Bytes} (h : StringSpelled e s) : Skips .inside e .inside := by
  induction h with
  | nil => exact skips_nil _
  | cons hw _ ih => exact hw.skips.append ih

theorem skips_quoted {e s : Bytes} (h : StringSpelled e s) :
    Skips .outside (Byte.quote :: (e ++ [Byte.quote])) .outside := by
  have hopen : Skips .outside [Byte.quote] .inside := skips_byte fun _ => by decide
  have hclose : Skips .inside [Byte.quote] .outside := skips_byte nofun
  exact hopen.append (h.skips.append hclose)

theorem skips_blanks (h : Blanks s) : Skips .outside s .outside :=
  skips_plain (not_mem_blanks h (by decide)) (not_mem_blanks h (by decide))

theorem skips_name (h : isName s = true) : Skips .outside s .outside :=
  skips_plain (not_mem_name h (by decide)) (not_mem_name h (by decide))

theorem skips_digits (h : Decimal.Digits s) : Skips .outside s .outside :=
  skips_plain (h.not_mem (by decide)) (h.not_mem (by decide))

end

theorem Value.Spelled.skips {s : Bytes} {v : Value} (h : Value.Spelled s v) :
    Skips .outside s .outside := by
  have hplus : Skips .outside [Byte.plus] .outside := skips_plain (by decide) (by decide)
  have hminus : Skips .outside [Byte.minus] .outside := skips_plain (by decide) (by decide)
  cases h with
  | yes | no => exact skips_plain (by decide) (by decide)
  | text hbody => exact skips_quoted hbody
  | integer hs _ =>
      cases hs with
      | bare hdigits => exact skips_digits hdigits
      | plus hdigits => exact hplus.append (skips_digits hdigits)
      | minus hdigits => exact hminus.append (skips_digits hdigits)
  | doublySigned hs _ =>
      obtain ⟨digits, hdigits, rfl, _⟩ := hs
      exact hplus.append (hminus.append (skips_digits hdigits))

theorem Entry.Spelled.skips {s : Bytes} {entry : Entry} (h : Entry.Spelled s entry) :
    Skips .outside s .outside := by
  cases h with
  | nothing => exact skips_nil _
  | header hbefore hname hafter =>
      have hopen : Skips .outside [Byte.openBracket] .outside := skips_plain (by decide) (by decide)
      have hclose : Skips .outside [Byte.closeBracket] .outside := skips_plain (by decide) (by decide)
      have hinner := ((skips_blanks hbefore).append (skips_name hname)).append (skips_blanks hafter)
      exact hopen.append (hinner.append hclose)
  | assignment hkey hbefore hafter hvalue =>
      have hequals : Skips .outside [Byte.equals] .outside := skips_plain (by decide) (by decide)
      have hfront := (skips_name hkey).append (skips_blanks hbefore)
      have hback := (skips_blanks hafter).append hvalue.skips
      exact hfront.append (hequals.append hback)

/-- Of what follows an entry the scanner leaves blanks. -/
theorem Remainder.blanks_uncommented {s : Bytes} (h : Remainder s) : Blanks (uncommented s) := by
  cases h with
  | blanks hs =>
      have hall := skips_blanks hs []
      rw [List.append_nil] at hall
      rw [uncommented, hall]
      simpa [uncommentedFrom] using hs
  | @comment s text hs =>
      rw [uncommented, skips_blanks hs]
      simpa [uncommentedFrom] using hs

namespace Entry

/-- A line that spells an entry before what may follow is read as that. -/
theorem ofLine_of_spelled {before s after : Bytes} {entry : Entry} (hbefore : Blanks before)
    (hs : Spelled s entry) (hafter : Remainder after) :
    ofLine (before ++ s ++ after) = .ok entry := by
  have hcut : uncommented (before ++ s ++ after) = before ++ s ++ uncommented after :=
    ((skips_blanks hbefore).append hs.skips) after
  rw [ofLine, hcut, Bytes.trim_append hbefore hs.tight hafter.blanks_uncommented,
    ofText_of_spelled hs]

end Entry
end Linewise.Settings
