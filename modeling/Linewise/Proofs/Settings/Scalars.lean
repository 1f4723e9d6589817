import Linewise.Proofs.Numerals
import Linewise.Settings.Document
/-!
The values of settings files, said as a grammar, and the reader of values measured against it. A
string stands in quotes, where a quote and a backslash are escaped and any other byte may stand for
itself; an integer is a numeral in range. The reader takes exactly the spelled values, and beyond
what a numeral is it takes one with a plus sign before its minus sign.
-/
namespace Linewise.Settings

/-- The spellings of one byte between the quotes. -/
inductive ByteSpelled : Bytes → UInt8 → Prop
  | plain {b} : b ≠ Byte.quote → b ≠ Byte.backslash → ByteSpelled [b] b
  | backslash : ByteSpelled [Byte.backslash, Byte.backslash] Byte.backslash
  | quote : ByteSpelled [Byte.backslash, Byte.quote] Byte.quote
  /-- a letter `n` -/
  | lf : ByteSpelled [Byte.backslash, 0x6E] Byte.lf
  /-- a letter `t` -/
  | tab : ByteSpelled [Byte.backslash, 0x74] Byte.tab

/-- The spellings of a text between the quotes. -/
inductive StringSpelled : Bytes → Bytes → Prop
  | nil : StringSpelled [] []
  | cons {w e b s} : ByteSpelled w b → StringSpelled e s → StringSpelled (w ++ e) (b :: s)

/-- A minus sign and digits behind a plus sign. -/
def DoublySigned (s : Bytes) (n : Int) : Prop :=
  ∃ digits, Decimal.Digits digits ∧ s = Byte.plus :: Byte.minus :: digits ∧
    n = -(Decimal.number digits : Int)

/-- The integers that a value may hold. -/
def InRange (n : Int) : Prop := -2 ^ 63 ≤ n ∧ n < 2 ^ 63

instance (n : Int) : Decidable (InRange n) :=
  inferInstanceAs (Decidable (-2 ^ 63 ≤ n ∧ n < 2 ^ 63))

/-- The spellings of values. -/
inductive Value.Spelled : Bytes → Value → Prop
  | yes : Spelled (utf8 "true") (.boolean true)
  | no : Spelled (utf8 "false") (.boolean false)
  | text {e s} : StringSpelled e s → Spelled (Byte.quote :: (e ++ [Byte.quote])) (.text s)
  | integer {s n} : Decimal.Signed s n → InRange n → Spelled s (.integer n)
  | doublySigned {s n} : DoublySigned s n → InRange n → Spelled s (.integer n)

theorem escape?_eq_some_iff (letter b : UInt8) :
    escape? letter = some b ↔ ByteSpelled [Byte.backslash, letter] b := by
  constructor
  · intro h
    unfold escape? at h
    split_ifs at h with hn ht hself
    · cases h
      exact hn ▸ .lf
    · cases h
      exact ht ▸ .tab
    · cases h
      rcases hself with rfl | rfl
      · exact .quote
      · exact .backslash
  · intro h
    cases h with
    | backslash | quote | lf | tab => rfl

/-- Reading goes past a spelled byte with that byte. -/
theorem readString_spelled {w : Bytes} {b : UInt8} (h : ByteSpelled w b) (seen rest : Bytes) :
    readString false seen (w ++ rest) = readString false (b :: seen) rest := by
  have hescape {letter : UInt8} (hletter : ByteSpelled [Byte.backslash, letter] b) :
      readString false seen ([Byte.backslash, letter] ++ rest) =
        readString false (b :: seen) rest := by
    have hquote : Byte.backslash ≠ Byte.quote := by decide
    simp [readString, hquote, (escape?_eq_some_iff letter b).mpr hletter]
  cases h with
  | plain hquote hbackslash => simp [readString, hquote, hbackslash]
  | backslash => exact hescape .backslash
  | quote => exact hescape .quote
  | lf => exact hescape .lf
  | tab => exact hescape .tab

theorem readString_of_spelled {e s : Bytes} (h : StringSpelled e s) (seen : Bytes) :
    readString false seen e = .ok (seen.reverse ++ s) := by
  induction h generalizing seen with
  | nil => simp [readString]
  | cons hw _ ih => rw [readString_spelled hw, ih, List.reverse_cons, List.append_assoc]; rfl

/-- What was read is spelled, together with a backslash that was read before. -/
theorem spelled_of_readString {escaped : Bool} {seen e s : Bytes}
    (h : readString escaped seen e = .ok s) :
    ∃ t, StringSpelled ((if escaped then [Byte.backslash] else []) ++ e) t ∧
      s = seen.reverse ++ t := by
  induction e generalizing escaped seen with
  | nil =>
      rw [readString] at h
      split_ifs at h with hescaped
      cases h
      rw [if_neg hescaped]
      exact ⟨[], .nil, (List.append_nil _).symm⟩
  | cons b rest ih =>
      -- The byte goes on from here, alone or behind the backslash that was held back.
      have hnext {w : Bytes} {c : UInt8} (hw : ByteSpelled w c)
          (hread : readString false (c :: seen) rest = .ok s) :
          ∃ t, StringSpelled (w ++ rest) t ∧ s = seen.reverse ++ t := by
        obtain ⟨t, ht, rfl⟩ := ih hread
        exact ⟨c :: t, .cons hw ht, by simp⟩
      rw [readString] at h
      split_ifs at h with hescaped hquote hbackslash
      · rw [if_pos hescaped]
        split at h
        · rename_i c hc
          exact hnext ((escape?_eq_some_iff b c).mp hc) h
        · cases h
      · obtain ⟨t, ht, rfl⟩ := ih h
        rw [if_neg hescaped, hbackslash]
        exact ⟨t, ht, rfl⟩
      · rw [if_neg hescaped]
        exact hnext (.plain hquote hbackslash) h

theorem readString_eq_ok_iff (e s : Bytes) :
    readString false [] e = .ok s ↔ StringSpelled e s := by
  constructor
  · intro h
    obtain ⟨t, ht, rfl⟩ := spelled_of_readString h
    exact ht
  · intro h
    exact readString_of_spelled h []

theorem isQuoted_iff (s : Bytes) :
    isQuoted s = true ↔ ∃ body, s = Byte.quote :: (body ++ [Byte.quote]) := by
  constructor
  · intro h
    simp only [isQuoted, Bool.and_eq_true, decide_eq_true_eq, beq_iff_eq] at h
    obtain ⟨⟨hsize, hhead⟩, hlast⟩ := h
    obtain ⟨rest, rfl⟩ := List.head?_eq_some_iff.mp hhead
    have hne : rest ≠ [] := by
      rintro rfl
      exact absurd hsize (by decide)
    rw [List.getLast?_cons_of_ne_nil hne] at hlast
    obtain ⟨body, rfl⟩ := List.getLast?_eq_some_iff.mp hlast
    exact ⟨body, rfl⟩
  · rintro ⟨body, rfl⟩
    have hlast : (Byte.quote :: (body ++ [Byte.quote])).getLast? = some Byte.quote := by
      rw [← List.cons_append, List.getLast?_concat]
    simp [isQuoted, hlast]

theorem fits_iff (n : Int) : Decimal.fits 64 n = true ↔ InRange n := by
  rw [Decimal.fits, Bool.and_eq_true, decide_eq_true_iff, decide_eq_true_iff]
  rfl

/-- A plus sign is taken off before a number is read, so another sign may follow it. -/
theorem whole?_unsigned_iff (s : Bytes) (n : Int) :
    Decimal.whole? 64 (if s.head? == some Byte.plus then s.drop 1 else s) = some n ↔
      (Decimal.Signed s n ∨ DoublySigned s n) ∧ InRange n := by
  by_cases hplus : s.head? = some Byte.plus
  · obtain ⟨rest, rfl⟩ := List.head?_eq_some_iff.mp hplus
    rw [if_pos (beq_iff_eq.mpr hplus), List.drop_one, List.tail_cons, Decimal.whole?_eq_some_iff,
      fits_iff]
    constructor
    · rintro ⟨hrest, hhead, hrange⟩
      refine ⟨?_, hrange⟩
      cases hrest with
      | bare hdigits => exact .inl (.plus hdigits)
      | plus hdigits => exact absurd rfl hhead
      | minus hdigits => exact .inr ⟨_, hdigits, rfl, rfl⟩
    · rintro ⟨hs | ⟨digits, hdigits, hs, rfl⟩, hrange⟩
      · cases hs with
        | bare hdigits => exact absurd rfl (hdigits.head?_ne (by decide))
        | plus hdigits => exact ⟨.bare hdigits, hdigits.head?_ne (by decide), hrange⟩
      · obtain rfl := (List.cons.inj hs).2
        exact ⟨.minus hdigits, by simp [Byte.minus, Byte.plus], hrange⟩
  · have hnot : ¬ DoublySigned s n := by
      rintro ⟨digits, _, rfl, _⟩
      exact hplus rfl
    rw [if_neg (by simpa using hplus), Decimal.whole?_eq_some_iff, fits_iff, or_iff_left hnot,
      and_iff_right hplus]

/-- What starts a number starts neither a string nor a word. -/
theorem head_of_signed {s : Bytes} {n : Int} (h : Decimal.Signed s n ∨ DoublySigned s n) :
    ∃ b rest, s = b :: rest ∧ b ≠ Byte.quote ∧ b ≠ 0x74 ∧ b ≠ 0x66 := by
  rcases h with h | ⟨digits, _, rfl, _⟩
  · cases h with
    | bare hdigits =>
        obtain ⟨b, rest, rfl⟩ := List.exists_cons_of_ne_nil hdigits.1
        have hne {c : UInt8} (hc : Byte.isDigit c = false) : b ≠ c := by
          rintro rfl
          exact hdigits.not_mem hc List.mem_cons_self
        exact ⟨b, rest, rfl, hne (by decide), hne (by decide), hne (by decide)⟩
    | plus | minus => exact ⟨_, _, rfl, by decide⟩
  · exact ⟨_, _, rfl, by decide⟩

theorem readValue_number {s : Bytes} {n : Int} (h : Decimal.Signed s n ∨ DoublySigned s n)
    (hrange : InRange n) : readValue s = .ok (.integer n) := by
  have hread := (whole?_unsigned_iff s n).mpr ⟨h, hrange⟩
  obtain ⟨b, rest, rfl, hquote, ht, hf⟩ := head_of_signed h
  have htrue : b :: rest ≠ utf8 "true" := fun heq => ht (List.cons.inj heq).1
  have hfalse : b :: rest ≠ utf8 "false" := fun heq => hf (List.cons.inj heq).1
  have hquoted : isQuoted (b :: rest) ≠ true := by
    intro hquoted
    obtain ⟨body, hbody⟩ := (isQuoted_iff _).mp hquoted
    exact hquote (List.cons.inj hbody).1
  rw [readValue, if_neg (by simp), if_neg htrue, if_neg hfalse, if_neg hquoted, hread]

theorem readValue_quoted (body : Bytes) :
    readValue (Byte.quote :: (body ++ [Byte.quote])) = (readString false [] body).map .text := by
  have hquoted : isQuoted (Byte.quote :: (body ++ [Byte.quote])) = true :=
    (isQuoted_iff _).mpr ⟨body, rfl⟩
  have hword {word : Bytes} (h : word.head? ≠ some Byte.quote) :
      Byte.quote :: (body ++ [Byte.quote]) ≠ word := by
    rintro rfl
    exact h rfl
  rw [readValue, if_neg (by simp), if_neg (hword (by decide)), if_neg (hword (by decide)),
    if_pos hquoted, List.drop_one, List.tail_cons, List.dropLast_concat]

/-- Exactly the spelled values are read. -/
theorem readValue_eq_ok_iff (s : Bytes) (v : Value) :
    readValue s = .ok v ↔ Value.Spelled s v := by
  constructor
  · intro h
    by_cases hquoted : isQuoted s = true
    · obtain ⟨body, rfl⟩ := (isQuoted_iff s).mp hquoted
      rw [readValue_quoted] at h
      cases hbody : readString false [] body with
      | error e =>
          rw [hbody] at h
          cases h
      | ok text =>
          rw [hbody] at h
          cases h
          exact .text ((readString_eq_ok_iff body text).mp hbody)
    · have hnumber := whole?_unsigned_iff s
      unfold readValue at h
      generalize Decimal.whole? 64 _ = number at h hnumber
      split_ifs at h with hempty htrue hfalse
      · cases h
        exact htrue ▸ .yes
      · cases h
        exact hfalse ▸ .no
      · cases number with
        | none => cases h
        | some n =>
            cases h
            obtain ⟨hs | hs, hrange⟩ := (hnumber n).mp rfl
            · exact .integer hs hrange
            · exact .doublySigned hs hrange
  · intro h
    cases h with
    | yes | no => rfl
    | text hbody => rw [readValue_quoted, (readString_eq_ok_iff _ _).mpr hbody]; rfl
    | integer hs hrange => exact readValue_number (.inl hs) hrange
    | doublySigned hs hrange => exact readValue_number (.inr hs) hrange

end Linewise.Settings
