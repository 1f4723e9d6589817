import Linewise.Listing.Literal
import Mathlib.Data.List.TakeWhile
/-!
How literals are spelled, said as a grammar, and the reader of literals measured against it. Inside
the quotes a byte stands for itself unless it is a line feed, a quote or a backslash, and any byte
may be escaped; the reader takes exactly the spelled literals, and what is written is spelled.
-/
namespace Linewise

/-- Nothing but spaces, tabs and carriage returns. -/
def Blanks (s : Bytes) : Prop := ∀ b ∈ s, b = Byte.space ∨ b = Byte.tab ∨ b = Byte.cr

-- The bytes of the text are tried, and not all bytes there are.
instance (s : Bytes) : Decidable (Blanks s) := List.decidableBAll _ s

def HexDigit (d : UInt8) (v : Nat) : Prop :=
  (0x30 ≤ d ∧ d ≤ 0x39 ∧ v + 0x30 = d.toNat) ∨
    (0x61 ≤ d ∧ d ≤ 0x66 ∧ v + 0x61 = d.toNat + 10) ∨
    (0x41 ≤ d ∧ d ≤ 0x46 ∧ v + 0x41 = d.toNat + 10)

namespace Literal

/-- The spellings of one byte between the quotes. -/
inductive Spelled : Bytes → UInt8 → Prop
  | plain {b} : b ≠ Byte.lf → b ≠ Byte.quote → b ≠ Byte.backslash → Spelled [b] b
  | backslash : Spelled [Byte.backslash, Byte.backslash] Byte.backslash
  | quote : Spelled [Byte.backslash, Byte.quote] Byte.quote
  /-- a letter `n` -/
  | lf : Spelled [Byte.backslash, 0x6E] Byte.lf
  /-- a letter `r` -/
  | cr : Spelled [Byte.backslash, 0x72] Byte.cr
  /-- a letter `t` -/
  | tab : Spelled [Byte.backslash, 0x74] Byte.tab
  /-- a letter `x` and two digits -/
  | hex {d₁ d₂ v₁ v₂} : HexDigit d₁ v₁ → HexDigit d₂ v₂ →
      Spelled [Byte.backslash, 0x78, d₁, d₂] (UInt8.ofNat (16 * v₁ + v₂))

/-- The spellings of a text between the quotes. -/
inductive Body : Bytes → Bytes → Prop
  | nil : Body [] []
  | cons {w s b text} : Spelled w b → Body s text → Body (w ++ s) (b :: text)

/-- The spellings of a text as a literal. -/
def Quoted (s text : Bytes) : Prop :=
  ∃ body, Body body text ∧ s = Byte.quote :: (body ++ [Byte.quote])

end Literal

theorem blanks_nil : Blanks [] := nofun

theorem isBlank_iff (b : UInt8) :
    Byte.isBlank b = true ↔ b = Byte.space ∨ b = Byte.tab ∨ b = Byte.cr := by
  simp only [Byte.isBlank, Bool.or_eq_true, beq_iff_eq, or_assoc]

theorem blanks_iff_dropWhile (s : Bytes) : Blanks s ↔ s.dropWhile Byte.isBlank = [] := by
  simp only [Blanks, List.dropWhile_eq_nil_iff, isBlank_iff]

theorem dropWhile_isBlank_eq_cons_iff (s : Bytes) (b : UInt8) (rest : Bytes) :
    s.dropWhile Byte.isBlank = b :: rest ↔
      Byte.isBlank b = false ∧ ∃ blanks, Blanks blanks ∧ s = blanks ++ b :: rest := by
  constructor
  · intro h
    refine ⟨?_, s.takeWhile Byte.isBlank, ?_, ?_⟩
    · have hhead := List.head_dropWhile_not (l := s) Byte.isBlank (by simp [h])
      simpa [h] using hhead
    · intro x hx
      exact (isBlank_iff x).mp (List.mem_takeWhile_imp hx)
    · rw [← h, List.takeWhile_append_dropWhile]
  · rintro ⟨hb, blanks, hblanks, rfl⟩
    have hall : ∀ x ∈ blanks, Byte.isBlank x = true := by
      intro x hx
      exact (isBlank_iff x).mpr (hblanks x hx)
    rw [List.dropWhile_append_of_pos hall, List.dropWhile_cons_of_neg (by simp [hb])]

theorem hexValue?_eq_some_iff (d b : UInt8) :
    Byte.hexValue? d = some b ↔ HexDigit d b.toNat := by
  have hd := d.toNat_lt
  have hb := b.toNat_lt
  unfold Byte.hexValue? HexDigit Byte.isDigit
  simp only [Bool.and_eq_true, decide_eq_true_eq]
  split_ifs with hdecimal hlower hupper
  all_goals simp only [UInt8.le_iff_toNat_le, UInt8.reduceToNat] at *
  · simp only [Option.some.injEq, ← UInt8.toNat_inj, UInt8.toNat_sub, UInt8.reduceToNat]
    omega
  · simp only [Option.some.injEq, ← UInt8.toNat_inj, UInt8.toNat_add, UInt8.toNat_sub,
      UInt8.reduceToNat]
    omega
  · simp only [Option.some.injEq, ← UInt8.toNat_inj, UInt8.toNat_add, UInt8.toNat_sub,
      UInt8.reduceToNat]
    omega
  · simp only [false_iff]
    omega

namespace HexDigit

theorem lt_sixteen {d : UInt8} {v : Nat} (h : HexDigit d v) : v < 16 := by
  have hd := d.toNat_lt
  unfold HexDigit at h
  simp only [UInt8.le_iff_toNat_le, UInt8.reduceToNat] at h
  omega

theorem hexValue? {d : UInt8} {v : Nat} (h : HexDigit d v) :
    Byte.hexValue? d = some (UInt8.ofNat v) := by
  have hv := h.lt_sixteen
  have hvalue : (UInt8.ofNat v).toNat = v := UInt8.toNat_ofNat_of_lt' (show v < 256 by omega)
  rw [hexValue?_eq_some_iff, hvalue]
  exact h

theorem lowerCase {n : UInt8} (h : n.toNat < 16) :
    HexDigit (if n < 10 then 0x30 + n else 0x61 + (n - 10)) n.toNat := by
  unfold HexDigit
  split_ifs with hn
  all_goals
    simp only [UInt8.lt_iff_toNat_lt, UInt8.le_iff_toNat_le, UInt8.toNat_add, UInt8.toNat_sub,
      UInt8.reduceToNat] at *
    omega

theorem upperCase {n : UInt8} (h : n.toNat < 16) :
    HexDigit (if n < 10 then 0x30 + n else 0x41 + (n - 10)) n.toNat := by
  unfold HexDigit
  split_ifs with hn
  all_goals
    simp only [UInt8.lt_iff_toNat_lt, UInt8.le_iff_toNat_le, UInt8.toNat_add, UInt8.toNat_sub,
      UInt8.reduceToNat] at *
    omega

/-- No digit comes before the digits of ten. -/
theorem ge_zero {d : UInt8} {v : Nat} (h : HexDigit d v) : 0x30 ≤ d := by
  unfold HexDigit at h
  simp only [UInt8.le_iff_toNat_le, UInt8.reduceToNat] at h ⊢
  omega

end HexDigit

theorem toNat_high (b : UInt8) : (b >>> 4).toNat = b.toNat / 16 := by
  rw [UInt8.toNat_shiftRight]
  exact Nat.shiftRight_eq_div_pow _ _

theorem toNat_low (b : UInt8) : (b &&& 0x0F).toNat = b.toNat % 16 := by
  rw [UInt8.toNat_and]
  exact Nat.and_two_pow_sub_one_eq_mod _ 4

/-- A byte from its two hexadecimal halves. -/
theorem ofNat_halves (b : UInt8) :
    UInt8.ofNat (16 * (b >>> 4).toNat + (b &&& 0x0F).toNat) = b := by
  rw [toNat_high, toNat_low, Nat.div_add_mod, UInt8.ofNat_toNat]

theorem toNat_halves_lt (b : UInt8) : (b >>> 4).toNat < 16 ∧ (b &&& 0x0F).toNat < 16 := by
  have hb := b.toNat_lt
  rw [toNat_high, toNat_low]
  omega

theorem lowerHex_spelled (b : UInt8) :
    Literal.Spelled (Byte.backslash :: 0x78 :: Byte.lowerHex b) b := by
  obtain ⟨hhigh, hlow⟩ := toNat_halves_lt b
  have hspelled := Literal.Spelled.hex (HexDigit.lowerCase hhigh) (HexDigit.lowerCase hlow)
  rw [ofNat_halves] at hspelled
  exact hspelled

namespace Literal

theorem escapeByte_spelled (b : UInt8) : Spelled (escapeByte b) b := by
  unfold escapeByte
  split_ifs with hbackslash hquote hlf hcr htab hcontrol
  · exact hbackslash ▸ .backslash
  · exact hquote ▸ .quote
  · exact hlf ▸ .lf
  · exact hcr ▸ .cr
  · exact htab ▸ .tab
  · exact lowerHex_spelled b
  · exact .plain hlf hquote hbackslash

theorem escape_body (text : Bytes) : Body (escape text) text := by
  induction text with
  | nil => exact .nil
  | cons b text ih => exact .cons (escapeByte_spelled b) ih

theorem write_quoted (text : Bytes) : Quoted (write text) text := ⟨_, escape_body text, rfl⟩

theorem Spelled.lf_not_mem {w : Bytes} {b : UInt8} (h : Spelled w b) : Byte.lf ∉ w := by
  cases h with
  | plain hlf _ _ => simpa [eq_comm] using hlf
  | backslash | quote | lf | cr | tab => decide
  | @hex d₁ d₂ v₁ v₂ h₁ h₂ =>
      have hne : ∀ {d v}, HexDigit d v → Byte.lf ≠ d := by
        rintro d v hd rfl
        exact absurd hd.ge_zero (by decide)
      simp [hne h₁, hne h₂]
      decide

theorem Body.lf_not_mem {s text : Bytes} (h : Body s text) : Byte.lf ∉ s := by
  induction h with
  | nil => exact List.not_mem_nil
  | cons hw _ ih => simpa using ⟨hw.lf_not_mem, ih⟩

theorem readEscape_spelled {w : Bytes} {b : UInt8} (h : Spelled (Byte.backslash :: w) b)
    (rest : Bytes) : readEscape (w ++ rest) = .ok (b, rest) := by
  generalize hs : Byte.backslash :: w = s at h
  cases h with
  | plain _ _ hb => exact absurd (List.cons.inj hs).1.symm hb
  | backslash | quote | lf | cr | tab =>
      obtain rfl := (List.cons.inj hs).2
      rfl
  | @hex d₁ d₂ v₁ v₂ h₁ h₂ =>
      obtain rfl := (List.cons.inj hs).2
      have hx : shortEscape? 0x78 = none := by decide
      have hvalue : UInt8.ofNat v₁ * 16 + UInt8.ofNat v₂ = UInt8.ofNat (16 * v₁ + v₂) := by
        rw [UInt8.ofNat_add, UInt8.ofNat_mul, UInt8.mul_comm]
        rfl
      simp only [readEscape, List.cons_append, List.nil_append, hx, if_true, h₁.hexValue?,
        h₂.hexValue?, hvalue]

theorem spelled_of_readEscape {s rest : Bytes} {b : UInt8} (h : readEscape s = .ok (b, rest)) :
    ∃ w, Spelled (Byte.backslash :: w) b ∧ s = w ++ rest := by
  unfold readEscape at h
  split at h
  · cases h
  · rename_i e more
    split at h
    · rename_i c hc
      cases h
      refine ⟨[e], ?_, rfl⟩
      unfold shortEscape? at hc
      split_ifs at hc with he he he he he
      all_goals
        cases hc
        subst he
        constructor
    · split_ifs at h with he
      split at h
      · rename_i d₁ d₂ more'
        split at h
        · rename_i v₁ v₂ h₁ h₂
          cases h
          rw [hexValue?_eq_some_iff] at h₁ h₂
          have hvalue : UInt8.ofNat (16 * v₁.toNat + v₂.toNat) = v₁ * 16 + v₂ := by
            rw [UInt8.ofNat_add, UInt8.ofNat_mul, UInt8.ofNat_toNat, UInt8.ofNat_toNat,
              UInt8.mul_comm]
            rfl
          refine ⟨[0x78, d₁, d₂], ?_, by rw [he]; rfl⟩
          exact hvalue ▸ Spelled.hex h₁ h₂
        · cases h
      · cases h

/-- Reading goes past a spelled byte with that byte. -/
theorem readBody_spelled {w : Bytes} {b : UInt8} (h : Spelled w b) (seen rest : Bytes) :
    readBody seen (w ++ rest) = readBody (b :: seen) rest := by
  cases w with
  | nil => cases h
  | cons c w =>
      by_cases hc : c = Byte.backslash
      · subst hc
        have hquote : Byte.backslash ≠ Byte.quote := by decide
        rw [List.cons_append, readBody, if_neg hquote, if_pos rfl]
        split
        · rename_i heq
          rw [readEscape_spelled h] at heq
          cases heq
        · rename_i heq
          rw [readEscape_spelled h] at heq
          cases heq
          rfl
      · cases h with
        | plain _ hquote hbackslash =>
            rw [List.cons_append, readBody, if_neg hquote, if_neg hbackslash]
            rfl
        | backslash | quote | lf | cr | tab | hex => exact absurd rfl hc

theorem readBody_body {body text : Bytes} (h : Body body text) (seen rest : Bytes) :
    readBody seen (body ++ Byte.quote :: rest) = .ok (seen.reverse ++ text, rest) := by
  induction h generalizing seen with
  | nil => rw [List.nil_append, readBody, if_pos rfl, List.append_nil]
  | cons hw _ ih =>
      rw [List.append_assoc, readBody_spelled hw, ih, List.reverse_cons, List.append_assoc]
      rfl

/-- A written literal ends where it seems to end, whatever it holds and whatever follows it. -/
theorem write_append_inj {a b s t : Bytes} (h : write a ++ s = write b ++ t) : a = b ∧ s = t := by
  have hread (text rest : Bytes) :
      readBody [] (escape text ++ Byte.quote :: rest) = .ok (text, rest) :=
    readBody_body (escape_body text) [] rest
  have hbody : escape a ++ Byte.quote :: s = escape b ++ Byte.quote :: t := by
    simpa [write] using h
  have hsame := hread a s
  rw [hbody, hread] at hsame
  cases hsame
  exact ⟨rfl, rfl⟩

theorem body_of_readBody {seen s text rest : Bytes} (h : readBody seen s = .ok (text, rest))
    (hlf : Byte.lf ∉ s) : ∃ body u, Body body u ∧ s = body ++ Byte.quote :: rest ∧
      text = seen.reverse ++ u := by
  induction seen, s using readBody.induct with
  | case1 seen => simp [readBody] at h
  | case2 seen more =>
      rw [readBody, if_pos rfl] at h
      cases h
      exact ⟨[], [], .nil, rfl, (List.append_nil _).symm⟩
  | case3 seen more fault hfault hquote =>
      rw [readBody, if_neg hquote, if_pos rfl] at h
      split at h
      · cases h
      · rename_i heq
        rw [hfault] at heq
        cases heq
  | case4 seen more c after hescape _ ih =>
      obtain ⟨w, hw, rfl⟩ := spelled_of_readEscape hescape
      have hskip := readBody_spelled hw seen after
      rw [List.cons_append] at hskip
      rw [hskip] at h
      simp only [List.mem_cons, List.mem_append, not_or] at hlf
      obtain ⟨body, u, hbody, rfl, rfl⟩ := ih h hlf.2.2
      refine ⟨_, c :: u, .cons hw hbody, by simp, by simp⟩
  | case5 seen b more hquote hbackslash ih =>
      rw [readBody, if_neg hquote, if_neg hbackslash] at h
      rw [List.mem_cons, not_or] at hlf
      obtain ⟨body, u, hbody, rfl, rfl⟩ := ih h hlf.2
      have hw : Spelled [b] b := .plain (Ne.symm hlf.1) hquote hbackslash
      exact ⟨_, b :: u, .cons hw hbody, rfl, by simp⟩

/-- The reader takes exactly the literals that are spelled, after blanks. -/
theorem read_eq_ok_iff {s : Bytes} (hlf : Byte.lf ∉ s) (text rest : Bytes) :
    read s = .ok (text, rest) ↔
      ∃ blanks literal, Blanks blanks ∧ Quoted literal text ∧ s = blanks ++ literal ++ rest := by
  constructor
  · intro h
    unfold read at h
    split at h
    · cases h
    · rename_i b more heq
      split_ifs at h with hb
      subst hb
      obtain ⟨_, blanks, hblanks, rfl⟩ := (dropWhile_isBlank_eq_cons_iff _ _ _).mp heq
      simp only [List.mem_append, List.mem_cons, not_or] at hlf
      obtain ⟨body, u, hbody, rfl, rfl⟩ := body_of_readBody h hlf.2.2
      exact ⟨blanks, _, hblanks, ⟨body, hbody, rfl⟩, by simp⟩
  · rintro ⟨blanks, _, hblanks, ⟨body, hbody, rfl⟩, rfl⟩
    have hdrop : (blanks ++ Byte.quote :: (body ++ [Byte.quote]) ++ rest).dropWhile Byte.isBlank =
        Byte.quote :: (body ++ Byte.quote :: rest) := by
      rw [dropWhile_isBlank_eq_cons_iff]
      exact ⟨by decide, blanks, hblanks, by simp⟩
    rw [read, hdrop]
    exact readBody_body hbody [] rest

theorem Quoted.lf_not_mem {s text : Bytes} (h : Quoted s text) : Byte.lf ∉ s := by
  obtain ⟨body, hbody, rfl⟩ := h
  have hquote : Byte.lf ≠ Byte.quote := by decide
  simp [hbody.lf_not_mem, hquote]

end Literal
end Linewise
