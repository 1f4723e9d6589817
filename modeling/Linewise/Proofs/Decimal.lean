import Linewise.Decimal
import Mathlib.Data.List.Basic
/-!
Numbers survive being written in decimal: the digits are nonempty, all of them are digits, and they
have the value that was written. So two numbers with the same digits are the same number, also where
more text follows, as long as that does not go on with a digit.
-/
namespace Linewise.Decimal

theorem digit_bounds {c : Char} (h : c.isDigit = true) : 0x30 ≤ c.toNat ∧ c.toNat ≤ 0x39 := by
  simp only [Char.isDigit, Bool.and_eq_true, decide_eq_true_eq] at h
  exact ⟨UInt32.le_iff_toNat_le.mp h.1, UInt32.le_iff_toNat_le.mp h.2⟩

theorem digit_toNat {c : Char} (h : c.isDigit = true) : c.toNat.toUInt8.toNat = c.toNat := by
  have hc := digit_bounds h
  have hword : c.toNat.toUInt8.toNat = c.toNat % 256 := rfl
  omega

theorem digit_isDigit {c : Char} (h : c.isDigit = true) : Byte.isDigit c.toNat.toUInt8 = true := by
  have hc := digit_bounds h
  simp only [Byte.isDigit, Bool.and_eq_true, decide_eq_true_eq, UInt8.le_iff_toNat_le,
    digit_toNat h, UInt8.reduceToNat]
  exact hc

theorem isDigit_of_mem_ofNat {n : Nat} {b : UInt8} (h : b ∈ ofNat n) : Byte.isDigit b = true := by
  obtain ⟨c, hc, rfl⟩ := List.mem_map.mp h
  exact digit_isDigit (Nat.isDigit_of_mem_toDigits (by decide) (by decide) hc)

theorem lf_not_mem_ofNat (n : Nat) : Byte.lf ∉ ofNat n :=
  fun h => absurd (isDigit_of_mem_ofNat h) (by decide)

/-- A larger number does not have fewer digits. -/
theorem length_ofNat_mono {m n : Nat} (h : m ≤ n) : (ofNat m).length ≤ (ofNat n).length := by
  have hpos : 0 < (Nat.toDigits 10 n).length := Nat.length_toDigits_pos
  have hn := (Nat.length_toDigits_le_iff (by decide) hpos).mp (Nat.le_refl _)
  simp only [ofNat, List.length_map]
  exact (Nat.length_toDigits_le_iff (by decide) hpos).mpr (Nat.lt_of_le_of_lt h hn)

@[simp] theorem ofNat_ne_nil (n : Nat) : ofNat n ≠ [] := by
  simp [ofNat, Nat.toDigits_ne_nil]

@[simp] theorem all_isDigit_ofNat (n : Nat) : (ofNat n).all Byte.isDigit = true :=
  List.all_eq_true.mpr fun _ => isDigit_of_mem_ofNat

/-- Digits of characters and digits of bytes are summed up alike. -/
theorem foldl_digits {cs : List Char} (h : ∀ c ∈ cs, c.isDigit = true) (n : Nat) :
    (cs.map fun c => c.toNat.toUInt8).foldl (fun n d => 10 * n + Byte.digitValue d) n =
      Nat.ofDigitChars 10 cs n := by
  induction cs generalizing n with
  | nil => rfl
  | cons c cs ih =>
      rw [List.forall_mem_cons] at h
      rw [List.map_cons, List.foldl_cons, ih h.2]
      simp only [Nat.ofDigitChars, List.foldl_cons, Byte.digitValue, digit_toNat h.1]
      rfl

@[simp] theorem value_ofNat (n : Nat) : value (ofNat n) = n := by
  have hdigits : ∀ c ∈ Nat.toDigits 10 n, c.isDigit = true := fun _ hc =>
    Nat.isDigit_of_mem_toDigits (by decide) (by decide) hc
  rw [value, ofNat, foldl_digits hdigits, Nat.ofDigitChars_toDigits (by decide) (by decide)]

/-- Reads a nonempty row of digits. -/
def natural? (s : Bytes) : Option Nat :=
  if s.isEmpty || !s.all Byte.isDigit then none else some (value s)

@[simp] theorem natural?_ofNat (n : Nat) : natural? (ofNat n) = some n := by
  simp [natural?]

/-- A word below its sign bit is written as the number that it is. -/
theorem ofSignedWord_of_lt {w : UInt32} (h : w.toNat < UInt32.size / 2) :
    ofSignedWord w = ofNat w.toNat := by
  have hint : w.toInt32.toInt = w.toNat := by
    rw [← Int32.toInt_toBitVec, UInt32.toBitVec_toInt32, BitVec.toInt_eq_toNat_of_lt]
    · rfl
    · rw [UInt32.toNat_toBitVec]
      rw [UInt32.size] at h
      omega
  rw [ofSignedWord, hint]
  rfl

theorem ofNat_injective : Function.Injective ofNat := by
  intro m n h
  rw [← value_ofNat m, h, value_ofNat]

/-- Digits end where no digit follows. -/
theorem takeWhile_ofNat (n : Nat) {rest : Bytes} (h : rest.takeWhile Byte.isDigit = []) :
    (ofNat n ++ rest).takeWhile Byte.isDigit = ofNat n := by
  rw [List.takeWhile_append_of_pos fun _ => isDigit_of_mem_ofNat, h, List.append_nil]

theorem dropWhile_ofNat (n : Nat) {rest : Bytes} (h : rest.takeWhile Byte.isDigit = []) :
    (ofNat n ++ rest).dropWhile Byte.isDigit = rest := by
  have hrest := List.takeWhile_append_dropWhile (p := Byte.isDigit) (l := rest)
  rw [h, List.nil_append] at hrest
  rw [List.dropWhile_append_of_pos fun _ => isDigit_of_mem_ofNat, hrest]

theorem ofNat_append_inj {m n : Nat} {s t : Bytes} (hs : s.takeWhile Byte.isDigit = [])
    (ht : t.takeWhile Byte.isDigit = []) (h : ofNat m ++ s = ofNat n ++ t) : m = n ∧ s = t := by
  have hdigits := congrArg (List.takeWhile Byte.isDigit) h
  rw [takeWhile_ofNat m hs, takeWhile_ofNat n ht] at hdigits
  obtain rfl := ofNat_injective hdigits
  exact ⟨rfl, List.append_cancel_left h⟩

theorem ofWord_append_inj {v w : UInt32} {s t : Bytes} (hs : s.takeWhile Byte.isDigit = [])
    (ht : t.takeWhile Byte.isDigit = []) (h : ofWord v ++ s = ofWord w ++ t) : v = w ∧ s = t :=
  (ofNat_append_inj hs ht h).imp_left UInt32.toNat_inj.mp

end Linewise.Decimal
