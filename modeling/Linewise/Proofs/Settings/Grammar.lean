import Linewise.Proofs.Settings.Scalars
import Linewise.Proofs.Trimmed
/-!
The entries of settings files, said as a grammar, and the reader of entries measured against it. A
text with no blanks around it is read exactly if it is empty, a name in brackets, or a name, an equals
sign and a value.
-/
namespace Linewise.Settings

/-- The spellings of entries, without blanks around them. -/
inductive Entry.Spelled : Bytes → Entry → Prop
  | nothing : Spelled [] .nothing
  | header {before name after} : Blanks before → isName name = true → Blanks after →
      Spelled (Byte.openBracket :: (before ++ name ++ after ++ [Byte.closeBracket])) (.header name)
  | assignment {key before after s value} : isName key = true → Blanks before → Blanks after →
      Value.Spelled s value →
      Spelled (key ++ before ++ Byte.equals :: (after ++ s)) (.assignment key value)

def isNameByte (b : UInt8) : Bool := Byte.isLower b || Byte.isDigit b || b == Byte.underscore

theorem isName_iff (s : Bytes) : isName s = true ↔ s ≠ [] ∧ ∀ b ∈ s, isNameByte b = true := by
  simp [isName, isNameByte]

theorem not_mem_name {name : Bytes} (h : isName name = true) {b : UInt8}
    (hb : isNameByte b = false) : b ∉ name := by
  intro hmem
  rw [((isName_iff name).mp h).2 b hmem] at hb
  cases hb

theorem tight_name {name : Bytes} (h : isName name = true) : Tight name :=
  tight_of_no_blank fun b hb => not_blank_of (by decide) (((isName_iff name).mp h).2 b hb)

theorem tight_digits {digits : Bytes} (h : Decimal.Digits digits) : Tight digits :=
  tight_of_no_blank fun b hb => not_blank_of (by decide) (h.2 b hb)

theorem Value.Spelled.ne_nil {s : Bytes} {v : Value} (h : Value.Spelled s v) : s ≠ [] := by
  rintro rfl
  rw [← readValue_eq_ok_iff] at h
  cases h

theorem Value.Spelled.tight {s : Bytes} {v : Value} (h : Value.Spelled s v) : Tight s := by
  have hquote : Tight [Byte.quote] := by decide
  have hplus : Tight [Byte.plus] := by decide
  have hminus : Tight [Byte.minus] := by decide
  cases h with
  | yes | no => decide
  | text _ => exact hquote.around hquote (by decide) (by decide) _
  | integer hs _ =>
      cases hs with
      | bare hdigits => exact tight_digits hdigits
      | plus hdigits => exact hplus.around (tight_digits hdigits) (by decide) hdigits.1 []
      | minus hdigits => exact hminus.around (tight_digits hdigits) (by decide) hdigits.1 []
  | doublySigned hs _ =>
      obtain ⟨digits, hdigits, rfl, _⟩ := hs
      exact hplus.around (tight_digits hdigits) (by decide) hdigits.1 [Byte.minus]

theorem Entry.Spelled.tight {s : Bytes} {entry : Entry} (h : Entry.Spelled s entry) : Tight s := by
  cases h with
  | nothing => decide
  | header _ _ _ =>
      have hopen : Tight [Byte.openBracket] := by decide
      have hclose : Tight [Byte.closeBracket] := by decide
      exact hopen.around hclose (by decide) (by decide) _
  | @assignment key before after s value hkey _ _ hvalue =>
      have hends := (tight_name hkey).around hvalue.tight ((isName_iff key).mp hkey).1 hvalue.ne_nil
        (before ++ Byte.equals :: after)
      simpa using hends

namespace Entry

theorem ofText_header (body : Bytes) :
    ofText (Byte.openBracket :: (body ++ [Byte.closeBracket])) =
      if isName (Bytes.trim body) then .ok (.header (Bytes.trim body))
      else .error .invalidSection := by
  have hlast : (Byte.openBracket :: (body ++ [Byte.closeBracket])).getLast? =
      some Byte.closeBracket := by
    rw [← List.cons_append, List.getLast?_concat]
  rw [ofText, if_pos rfl, if_neg (not_not.mpr hlast), List.drop_one, List.tail_cons,
    List.dropLast_concat]

/-- What stands before the first equals sign is the key, and what stands behind it the value. -/
theorem ofText_equals {front back : Bytes} (hfree : Byte.equals ∉ front)
    (hopen : front.head? ≠ some Byte.openBracket) :
    ofText (front ++ Byte.equals :: back) =
      if isName (Bytes.trim front) then
        (readValue (Bytes.trim back)).map (.assignment (Bytes.trim front))
      else .error .invalidKey := by
  have hkey : ∀ b ∈ front, (b != Byte.equals) = true := by
    intro b hb
    rw [bne_iff_ne]
    rintro rfl
    exact hfree hb
  have htake : (front ++ Byte.equals :: back).takeWhile (· != Byte.equals) = front := by
    rw [List.takeWhile_append_of_pos hkey, List.takeWhile_cons_of_neg (by simp), List.append_nil]
  have hdrop : ((front ++ Byte.equals :: back).dropWhile (· != Byte.equals)).drop 1 = back := by
    rw [List.dropWhile_append_of_pos hkey, List.dropWhile_cons_of_neg (by simp)]
    rfl
  have hcontains : (front ++ Byte.equals :: back).contains Byte.equals = true := by simp
  unfold ofText
  split
  · rename_i hnil
    simp at hnil
  · rename_i b more hline
    have hb : b ≠ Byte.openBracket := by
      rintro rfl
      cases front with
      | nil => exact absurd (List.cons.inj hline).1 (by decide)
      | cons c front =>
          rw [List.cons_append] at hline
          exact hopen (congrArg some (List.cons.inj hline).1)
    rw [if_neg hb, if_pos hcontains, htake, hdrop]

/-- An assignment is read as its value is. -/
theorem ofText_assignment {key before : Bytes} (hkey : isName key = true) (hbefore : Blanks before)
    (rest : Bytes) :
    ofText (key ++ before ++ Byte.equals :: rest) =
      (readValue (Bytes.trim rest)).map (.assignment key) := by
  have htrim : Bytes.trim (key ++ before) = key :=
    Bytes.trim_append blanks_nil (tight_name hkey) hbefore
  have hfree : Byte.equals ∉ key ++ before := by
    rw [List.mem_append, not_or]
    exact ⟨not_mem_name hkey (by decide), not_mem_blanks hbefore (by decide)⟩
  have hopen : (key ++ before).head? ≠ some Byte.openBracket := by
    intro hhead
    rcases List.mem_append.mp (List.mem_of_head? hhead) with hmem | hmem
    · exact not_mem_name hkey (by decide) hmem
    · exact not_mem_blanks hbefore (by decide) hmem
  rw [ofText_equals hfree hopen, htrim, if_pos hkey]

/-- What is spelled is read. -/
theorem ofText_of_spelled {s : Bytes} {entry : Entry} (h : Spelled s entry) :
    ofText s = .ok entry := by
  cases h with
  | nothing => rfl
  | header hbefore hname hafter =>
      rw [ofText_header, Bytes.trim_append hbefore (tight_name hname) hafter, if_pos hname]
  | assignment hkey hbefore hafter hvalue =>
      have htrim := Bytes.trim_append hafter hvalue.tight blanks_nil
      rw [List.append_nil] at htrim
      rw [ofText_assignment hkey hbefore, htrim, (readValue_eq_ok_iff _ _).mpr hvalue]
      rfl

theorem spelled_of_header {rest : Bytes} {entry : Entry}
    (h : ofText (Byte.openBracket :: rest) = .ok entry) :
    Spelled (Byte.openBracket :: rest) entry := by
  by_cases hlast : (Byte.openBracket :: rest).getLast? = some Byte.closeBracket
  · have hne : rest ≠ [] := by
      rintro rfl
      exact absurd hlast (by decide)
    rw [List.getLast?_cons_of_ne_nil hne] at hlast
    obtain ⟨body, rfl⟩ := List.getLast?_eq_some_iff.mp hlast
    obtain ⟨before, after, hbefore, hafter, hbody⟩ := Bytes.exists_trim body
    rw [ofText_header] at h
    split_ifs at h with hname
    cases h
    conv => arg 1; rw [hbody]
    exact .header hbefore hname hafter
  · rw [ofText, if_pos rfl, if_pos hlast] at h
    cases h

theorem spelled_of_equals {front back : Bytes} (hs : Tight (front ++ Byte.equals :: back))
    (hfree : Byte.equals ∉ front) (hopen : front.head? ≠ some Byte.openBracket) {entry : Entry}
    (h : ofText (front ++ Byte.equals :: back) = .ok entry) :
    Spelled (front ++ Byte.equals :: back) entry := by
  rw [ofText_equals hfree hopen] at h
  split_ifs at h with hname
  cases hvalue : readValue (Bytes.trim back) with
  | error e =>
      rw [hvalue] at h
      cases h
  | ok value =>
      rw [hvalue] at h
      cases h
      obtain ⟨indent, before, hindent, hbefore, hfront⟩ := Bytes.exists_trim front
      obtain ⟨after, trailing, hafter, htrailing, hback⟩ := Bytes.exists_trim back
      generalize Bytes.trim front = key at *
      generalize Bytes.trim back = s at *
      subst hfront hback
      -- The outer blanks are gone already.
      have hleft : Tight (indent ++ (key ++ before ++ Byte.equals :: (after ++ s ++ trailing))) := by
        simpa using hs
      have hright : Tight (indent ++ key ++ before ++ Byte.equals :: (after ++ s) ++ trailing) := by
        simpa using hs
      rw [hleft.front_eq_nil hindent, hright.back_eq_nil htrailing, List.nil_append, List.append_nil]
      exact .assignment hname hbefore hafter ((readValue_eq_ok_iff _ _).mp hvalue)

theorem spelled_of_ofText {s : Bytes} (hs : Tight s) {entry : Entry} (h : ofText s = .ok entry) :
    Spelled s entry := by
  by_cases hopen : s.head? = some Byte.openBracket
  · obtain ⟨rest, rfl⟩ := List.head?_eq_some_iff.mp hopen
    exact spelled_of_header h
  · by_cases hequals : Byte.equals ∈ s
    · obtain ⟨front, back, rfl, hfree⟩ := List.eq_append_cons_of_mem hequals
      refine spelled_of_equals hs hfree ?_ h
      intro hhead
      apply hopen
      rw [List.head?_append, hhead]
      rfl
    · cases s with
      | nil =>
          cases h
          exact .nothing
      | cons b rest =>
          have hb : b ≠ Byte.openBracket := fun heq => hopen (congrArg some heq)
          have hnot : (b :: rest).contains Byte.equals ≠ true := by simpa using hequals
          rw [ofText, if_neg hb, if_neg hnot] at h
          cases h

theorem ofText_eq_ok_iff {s : Bytes} (hs : Tight s) (entry : Entry) :
    ofText s = .ok entry ↔ Spelled s entry :=
  ⟨spelled_of_ofText hs, ofText_of_spelled⟩

end Entry

end Linewise.Settings
