import Linewise.Proofs.Listing.Lines
import Linewise.Proofs.Settings.Grammar
/-!
Integers in settings files. A value that is neither a word nor a string should be taken exactly if it
is a numeral in range. The plus sign is taken off by the reader of values and the minus sign by the
reader of numbers, so the one may stand before the other, and this is the only exception.
-/
namespace Linewise.Settings

/-- The line assigns the value with this text to the key. -/
structure AssignsText (line key v : Bytes) : Prop where
  free : Byte.lf ∉ line
  name : isName key = true
  parts : ∃ before rest, Blanks before ∧
    Bytes.trim (uncommented line) = key ++ before ++ Byte.equals :: rest ∧ Bytes.trim rest = v

theorem AssignsText.ofLine_eq {line key v : Bytes} (h : AssignsText line key v) :
    Entry.ofLine line = (readValue v).map (.assignment key) := by
  obtain ⟨before, rest, hbefore, hline, rfl⟩ := h.parts
  rw [Entry.ofLine, hline, Entry.ofText_assignment h.name hbefore]

/-- A file of one line that assigns a value holds the value, or the error of reading it. -/
theorem AssignsText.read_eq {line key v : Bytes} (h : AssignsText line key v) :
    Document.read line =
      match readValue v with
      | .ok x => { values := [(key, x)] }
      | .error e => { error := some (1, e) } := by
  have hne : line ≠ [] := by
    rintro rfl
    obtain ⟨before, rest, _, hline, _⟩ := h.parts
    have hmem : Byte.equals ∈ Bytes.trim (uncommented []) := by simp [hline]
    cases hmem
  rw [Document.read, ← Newline.lfLines_eq, Newline.lfLines_last h.free hne, Document.readFrom,
    h.ofLine_eq]
  cases readValue v with
  | error e => rfl
  | ok x => rfl

theorem DoublySigned.not_signed {v : Bytes} {n : Int} (h : DoublySigned v n) (m : Int) :
    ¬ Decimal.Signed v m := by
  obtain ⟨digits, _, rfl, _⟩ := h
  intro hsigned
  cases hsigned with
  | bare hdigits => exact hdigits.head?_ne (by decide) rfl
  | plus hdigits => exact hdigits.head?_ne (by decide) rfl

section
variable {v : Bytes} (htrue : v ≠ utf8 "true") (hfalse : v ≠ utf8 "false")
  (hquoted : isQuoted v = false)
include htrue hfalse hquoted

/-- What is neither a word nor a string is taken as an integer. -/
theorem readValue_of_not_word (x : Value) :
    readValue v = .ok x ↔
      ∃ n, x = .integer n ∧ (Decimal.Signed v n ∨ DoublySigned v n) ∧ InRange n := by
  rw [readValue_eq_ok_iff]
  constructor
  · intro h
    cases h with
    | yes => exact absurd rfl htrue
    | no => exact absurd rfl hfalse
    | text _ =>
        rw [(isQuoted_iff _).mpr ⟨_, rfl⟩] at hquoted
        cases hquoted
    | integer hv hrange => exact ⟨_, rfl, .inl hv, hrange⟩
    | doublySigned hv hrange => exact ⟨_, rfl, .inr hv, hrange⟩
  · rintro ⟨n, rfl, hv | hv, hrange⟩
    · exact .integer hv hrange
    · exact .doublySigned hv hrange

/-- Exactly the numerals in range are taken, as the integers that they denote, unless the value has
a plus sign before a minus sign and is in range; then it is taken as well. Files show the reading of
values as it is. -/
theorem readValue_integer_iff :
    ((∀ x, readValue v = .ok x ↔ ∃ n, x = .integer n ∧ Decimal.Signed v n ∧ InRange n) ↔
      ∀ n, InRange n → ¬ DoublySigned v n) ∧
    (∀ x, readValue v = .ok x ↔
      ∃ n, x = .integer n ∧ (Decimal.Signed v n ∨ DoublySigned v n) ∧ InRange n) ∧
    ∀ line key, AssignsText line key v →
      Document.read line =
        match readValue v with
        | .ok x => { values := [(key, x)] }
        | .error e => { error := some (1, e) } := by
  have hread := readValue_of_not_word htrue hfalse hquoted
  refine ⟨?_, hread, fun line key h => h.read_eq⟩
  constructor
  · intro hrule n hrange hdouble
    obtain ⟨m, _, hsigned, _⟩ := (hrule _).mp ((hread _).mpr ⟨n, rfl, .inr hdouble, hrange⟩)
    exact hdouble.not_signed m hsigned
  · intro hsingle x
    rw [hread]
    refine exists_congr fun n => and_congr_right fun _ => and_congr_left fun hrange => ?_
    exact or_iff_left (hsingle n hrange)

end

/-- The least integer that a file can hold. -/
theorem readValue_integer_iff_at_least :
    let v := utf8 "-9223372036854775808"
    let line := utf8 "\tk= -9223372036854775808 # \"least"
    AssignsText line (utf8 "k") v ∧
      Document.read line = { values := [(utf8 "k", .integer (-9223372036854775808))] } := by
  intro v line
  have hline : AssignsText line (utf8 "k") v := by
    exact ⟨by decide, by decide, [], utf8 " -9223372036854775808", by decide, by decide +kernel,
      by decide +kernel⟩
  have hdigits : Decimal.Digits (utf8 "9223372036854775808") := by decide +kernel
  have hnumber : Decimal.number (utf8 "9223372036854775808") = 9223372036854775808 := by
    decide +kernel
  have hsigned : Decimal.Signed v (-9223372036854775808) := by
    have hminus := Decimal.Signed.minus hdigits
    rw [hnumber] at hminus
    exact hminus
  obtain ⟨_, hvalue, hread⟩ := readValue_integer_iff (v := v) (by decide) (by decide) (by decide)
  have hok : readValue v = .ok (.integer (-9223372036854775808)) :=
    (hvalue _).mpr ⟨_, rfl, .inl hsigned, by decide⟩
  refine ⟨hline, ?_⟩
  rw [hread line _ hline, hok]

/-- Two signs are taken, though no numeral has two. -/
theorem readValue_two_signs :
    let v := utf8 "+-5"
    v ≠ utf8 "true" ∧ v ≠ utf8 "false" ∧ isQuoted v = false ∧
      readValue v = .ok (.integer (-5)) ∧
      Document.read (utf8 "a = +-5\n") = { values := [(utf8 "a", .integer (-5))] } ∧
      ∀ n, ¬ Decimal.Signed v n := by
  intro v
  have hdouble : DoublySigned v (-5) := ⟨utf8 "5", by decide, rfl, by decide⟩
  exact ⟨by decide, by decide, by decide, by decide +kernel, by decide +kernel,
    hdouble.not_signed⟩

end Linewise.Settings
