import Linewise.Decimal
import Mathlib.Data.List.Basic
import Mathlib.Data.List.Induction
import Mathlib.Data.List.TakeWhile
import Mathlib.Data.Nat.Digits.Defs
/-!
Numerals, said without a reader: decimal digits after at most one sign. A whole text is read as a
number exactly if it is a numeral in range whose sign, if any, is a minus sign. Where only the start
of a text is read, the numeral may stand behind white space, and anything may stand behind it.
-/
namespace Linewise.Decimal

/-- A nonempty row of digits. -/
def Digits (s : Bytes) : Prop := s ≠ [] ∧ ∀ b ∈ s, Byte.isDigit b = true

instance (s : Bytes) : Decidable (Digits s) :=
  decidable_of_iff (s ≠ [] ∧ s.all Byte.isDigit = true) (by rw [List.all_eq_true]; rfl)

/-- The number that a row of digits denotes; its last digit counts the ones. -/
def number (digits : Bytes) : Nat := Nat.ofDigits 10 (digits.reverse.map Byte.digitValue)

theorem value_eq_number (digits : Bytes) : value digits = number digits := by
  induction digits using List.reverseRecOn with
  | nil => rfl
  | append_singleton digits d ih =>
      have hvalue : value (digits ++ [d]) = 10 * value digits + Byte.digitValue d := by
        rw [value, List.foldl_append]
        rfl
      have hnumber : number (digits ++ [d]) = Byte.digitValue d + 10 * number digits := by
        rw [number, List.reverse_append, List.map_append]
        exact Nat.ofDigits_cons
      rw [hvalue, hnumber, ih, Nat.add_comm]

/-- The numerals, which are digits after at most one sign. -/
inductive Signed : Bytes → Int → Prop
  | bare {digits} : Digits digits → Signed digits (number digits)
  | plus {digits} : Digits digits → Signed (Byte.plus :: digits) (number digits)
  | minus {digits} : Digits digits → Signed (Byte.minus :: digits) (-number digits)

theorem Digits.not_mem {s : Bytes} (h : Digits s) {b : UInt8} (hb : Byte.isDigit b = false) :
    b ∉ s := by
  intro hmem
  rw [h.2 b hmem] at hb
  cases hb

/-- No sign comes before the digits. -/
theorem Digits.head?_ne {s : Bytes} (h : Digits s) {b : UInt8} (hb : Byte.isDigit b = false) :
    s.head? ≠ some b := fun hhead => h.not_mem hb (List.mem_of_head? hhead)

section
variable {bits : Nat} {n : Int}

/-- Digits are taken for a number that is in range, and nothing else is. -/
theorem taken_iff (digits : Bytes) (k : Int) :
    (if digits.isEmpty || !digits.all Byte.isDigit then none
      else if fits bits k then some k else none) = some n ↔
      Digits digits ∧ k = n ∧ fits bits n = true := by
  have hdigits : (digits.isEmpty || !digits.all Byte.isDigit) = true ↔ ¬ Digits digits := by
    simp [Digits, imp_iff_not_or]
  split_ifs with hnot hfits
  · simp [hdigits.mp hnot]
  · have hd : Digits digits := not_not.mp fun h => hnot (hdigits.mpr h)
    simp only [Option.some.injEq, hd, true_and, iff_self_and]
    rintro rfl
    exact hfits
  · refine iff_of_false nofun ?_
    rintro ⟨_, rfl, hfits'⟩
    exact hfits hfits'

theorem whole?_minus (digits : Bytes) :
    whole? bits (Byte.minus :: digits) = some n ↔
      Digits digits ∧ -(number digits : Int) = n ∧ fits bits n = true := by
  rw [← value_eq_number]
  exact taken_iff digits _

theorem whole?_bare {s : Bytes} (h : s.head? ≠ some Byte.minus) :
    whole? bits s = some n ↔ Digits s ∧ (number s : Int) = n ∧ fits bits n = true := by
  have hsign : (s.head? == some Byte.minus) = false := beq_eq_false_iff_ne.mpr h
  rw [← value_eq_number, whole?, hsign]
  exact taken_iff s _

/-- Exactly the numerals without a plus sign are read, as the integers that they denote. -/
theorem whole?_eq_some_iff (s : Bytes) :
    whole? bits s = some n ↔ Signed s n ∧ s.head? ≠ some Byte.plus ∧ fits bits n = true := by
  constructor
  · intro h
    by_cases hminus : s.head? = some Byte.minus
    · obtain ⟨digits, rfl⟩ := List.head?_eq_some_iff.mp hminus
      obtain ⟨hdigits, rfl, hfits⟩ := (whole?_minus digits).mp h
      exact ⟨.minus hdigits, by simp [Byte.minus, Byte.plus], hfits⟩
    · obtain ⟨hdigits, rfl, hfits⟩ := (whole?_bare hminus).mp h
      exact ⟨.bare hdigits, hdigits.head?_ne (by decide), hfits⟩
  · rintro ⟨hs, hplus, hfits⟩
    cases hs with
    | bare hdigits => exact (whole?_bare (hdigits.head?_ne (by decide))).mpr ⟨hdigits, rfl, hfits⟩
    | plus hdigits => exact absurd rfl hplus
    | minus hdigits => exact (whole?_minus _).mpr ⟨hdigits, rfl, hfits⟩

end

/-- The text starts with a numeral, perhaps behind white space, and the numeral is not cut short. -/
def Leads (s : Bytes) (n : Int) : Prop :=
  ∃ space numeral rest, s = space ++ numeral ++ rest ∧ (∀ b ∈ space, isSpace b = true) ∧
    Signed numeral n ∧ ∀ b ∈ rest.head?, Byte.isDigit b = false

theorem Signed.leads {s : Bytes} {n : Int} (h : Signed s n) : Leads s n :=
  ⟨[], s, [], by simp, by simp, h, by simp⟩

theorem isSpace_of_isDigit {b : UInt8} (h : Byte.isDigit b = true) : isSpace b = false := by
  simp only [Byte.isDigit, Bool.and_eq_true, decide_eq_true_eq, UInt8.le_iff_toNat_le] at h
  simp only [isSpace, Bool.or_eq_false_iff, beq_eq_false_iff_ne, Bool.and_eq_false_iff,
    decide_eq_false_iff_not, UInt8.le_iff_toNat_le, UInt8.reduceToNat] at h ⊢
  refine ⟨?_, by omega⟩
  rintro rfl
  exact absurd h.1 (by decide)

/-- What is left behind the bytes of a kind does not start with one of them. -/
theorem not_of_mem_head?_dropWhile (p : UInt8 → Bool) (s : Bytes) :
    ∀ b ∈ (s.dropWhile p).head?, p b = false := by
  intro b hb
  have hnot := List.head?_dropWhile_not p s
  rw [Option.mem_def.mp hb] at hnot
  exact hnot

/-- A sign does not stand among digits. -/
theorem head?_takeWhile_isDigit (s : Bytes) {b : UInt8} (hb : Byte.isDigit b = false) :
    (s.takeWhile Byte.isDigit).head? ≠ some b := by
  intro hhead
  rw [List.mem_takeWhile_imp (List.mem_of_head? hhead)] at hb
  cases hb

theorem Digits.takeWhile_append {digits rest : Bytes} (h : Digits digits)
    (hrest : ∀ b ∈ rest.head?, Byte.isDigit b = false) :
    (digits ++ rest).takeWhile Byte.isDigit = digits := by
  rw [List.takeWhile_append_of_pos h.2]
  cases rest with
  | nil => simp
  | cons b rest => simp [hrest b rfl]

section
variable {bits : Nat} {n : Int} {space : Bytes} (hspace : ∀ b ∈ space, isSpace b = true)
include hspace

/-! What stands at the start is read as a whole text is read, up to the first byte that is no
digit. -/

theorem leading?_minus (s : Bytes) :
    leading? bits (space ++ Byte.minus :: s) =
      whole? bits (Byte.minus :: s.takeWhile Byte.isDigit) := by
  rw [leading?, List.dropWhile_append_of_pos hspace, List.dropWhile_cons_of_neg (by decide)]
  simp [whole?]

theorem leading?_plus (s : Bytes) :
    leading? bits (space ++ Byte.plus :: s) = whole? bits (s.takeWhile Byte.isDigit) := by
  have hsign := head?_takeWhile_isDigit s (b := Byte.minus) (by decide)
  have hplus : (Byte.plus == Byte.minus) = false := by decide
  rw [leading?, List.dropWhile_append_of_pos hspace, List.dropWhile_cons_of_neg (by decide)]
  simp [whole?, hsign, hplus]

theorem leading?_bare {s : Bytes} (hhead : ∀ b ∈ s.head?, isSpace b = false)
    (hminus : s.head? ≠ some Byte.minus) (hplus : s.head? ≠ some Byte.plus) :
    leading? bits (space ++ s) = whole? bits (s.takeWhile Byte.isDigit) := by
  have hsign := head?_takeWhile_isDigit s (b := Byte.minus) (by decide)
  have hdrop : s.dropWhile isSpace = s := by
    cases s with
    | nil => rfl
    | cons b s => exact List.dropWhile_cons_of_neg (by simp [hhead b rfl])
  rw [leading?, List.dropWhile_append_of_pos hspace, hdrop]
  simp [whole?, hsign, hminus, hplus]

theorem leads_of_digits (sign : Bytes) {rest : Bytes} {n : Int}
    (h : Signed (sign ++ rest.takeWhile Byte.isDigit) n) : Leads (space ++ (sign ++ rest)) n := by
  refine ⟨space, _, rest.dropWhile Byte.isDigit, ?_, hspace, h,
    not_of_mem_head?_dropWhile Byte.isDigit rest⟩
  rw [List.append_assoc, List.append_assoc, List.takeWhile_append_dropWhile]

end

/-- Exactly the texts that start with a numeral in range are read, as the integer that it denotes. -/
theorem leading?_eq_some_iff {bits : Nat} {n : Int} (s : Bytes) :
    leading? bits s = some n ↔ Leads s n ∧ fits bits n = true := by
  have hunsigned (t : Bytes) := head?_takeWhile_isDigit t (b := Byte.minus) (by decide)
  constructor
  · intro h
    have hspace : ∀ b ∈ s.takeWhile isSpace, isSpace b = true :=
      fun b hb => List.mem_takeWhile_imp hb
    have hparts : s = s.takeWhile isSpace ++ s.dropWhile isSpace :=
      List.takeWhile_append_dropWhile.symm
    have hhead := not_of_mem_head?_dropWhile isSpace s
    generalize s.takeWhile isSpace = space at hspace hparts
    generalize s.dropWhile isSpace = text at hparts hhead
    subst hparts
    by_cases hminus : text.head? = some Byte.minus
    · obtain ⟨rest, rfl⟩ := List.head?_eq_some_iff.mp hminus
      rw [leading?_minus hspace] at h
      obtain ⟨hdigits, rfl, hfits⟩ := (whole?_minus _).mp h
      exact ⟨leads_of_digits hspace [Byte.minus] (.minus hdigits), hfits⟩
    by_cases hplus : text.head? = some Byte.plus
    · obtain ⟨rest, rfl⟩ := List.head?_eq_some_iff.mp hplus
      rw [leading?_plus hspace] at h
      obtain ⟨hdigits, rfl, hfits⟩ := (whole?_bare (hunsigned rest)).mp h
      exact ⟨leads_of_digits hspace [Byte.plus] (.plus hdigits), hfits⟩
    · rw [leading?_bare hspace hhead hminus hplus] at h
      obtain ⟨hdigits, rfl, hfits⟩ := (whole?_bare (hunsigned text)).mp h
      exact ⟨leads_of_digits hspace [] (.bare hdigits), hfits⟩
  · rintro ⟨⟨space, numeral, rest, rfl, hspace, hsigned, hrest⟩, hfits⟩
    rw [List.append_assoc]
    cases hsigned with
    | bare hdigits =>
        have hhead : ∀ b ∈ (numeral ++ rest).head?, Byte.isDigit b = true := by
          rw [List.head?_append_of_ne_nil _ hdigits.1]
          exact fun b hb => hdigits.2 b (List.mem_of_head? hb)
        rw [leading?_bare hspace fun b hb => isSpace_of_isDigit (hhead b hb),
          hdigits.takeWhile_append hrest]
        · exact (whole?_bare (hdigits.head?_ne (by decide))).mpr ⟨hdigits, rfl, hfits⟩
        · exact fun hsign => absurd (hhead _ hsign) (by decide)
        · exact fun hsign => absurd (hhead _ hsign) (by decide)
    | plus hdigits =>
        rw [List.cons_append, leading?_plus hspace, hdigits.takeWhile_append hrest]
        exact (whole?_bare (hdigits.head?_ne (by decide))).mpr ⟨hdigits, rfl, hfits⟩
    | minus hdigits =>
        rw [List.cons_append, leading?_minus hspace, hdigits.takeWhile_append hrest]
        exact (whole?_minus _).mpr ⟨hdigits, rfl, hfits⟩

end Linewise.Decimal
