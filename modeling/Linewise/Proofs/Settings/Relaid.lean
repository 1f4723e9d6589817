import Linewise.Proofs.Settings.CutOff
import Linewise.Proofs.Settings.Uncommented
import Mathlib.Logic.Relation
/-!
The layout of settings files. Blanks, comments and lines that say nothing can be put in and blanks
taken out, and the lines may end as on another system: a text that was accepted still is, and holds
the same values. Each change of layout leaves the entries of the lines as they are, and the values
are told by the entries.
-/
namespace Linewise.Settings

/-- Changes of the layout of a line: the blanks at its ends, around the first equals sign of an
assignment and inside the brackets of a header are others, or a comment is put behind it. -/
inductive LineRelaid : Bytes → Bytes → Prop
  | ends {start back start' back' s} : Blanks start → Blanks back → Blanks start' → Blanks back' →
      LineRelaid (start ++ s ++ back) (start' ++ s ++ back')
  | equals {front before after before' after' back key value} : Byte.equals ∉ front →
      Entry.ofLine (front ++ before ++ Byte.equals :: (after ++ back)) =
        .ok (.assignment key value) →
      Blanks before → Blanks after → Blanks before' → Blanks after' →
      LineRelaid (front ++ before ++ Byte.equals :: (after ++ back))
        (front ++ before' ++ Byte.equals :: (after' ++ back))
  | brackets {start before after before' after' s back} : Blanks start → Byte.closeBracket ∉ s →
      Blanks before → Blanks after → Blanks before' → Blanks after' →
      LineRelaid (start ++ Byte.openBracket :: (before ++ s ++ after ++ Byte.closeBracket :: back))
        (start ++ Byte.openBracket :: (before' ++ s ++ after' ++ Byte.closeBracket :: back))
  | comment {s text} : LineRelaid s (s ++ Byte.hash :: text)

/-- The text with a carriage return before every line feed. -/
def withReturns (text : Bytes) : Bytes :=
  text.flatMap fun b => if b = Byte.lf then [Byte.cr, Byte.lf] else [b]

/-- Changes of the layout of a text: all lines end in another way, one line is laid out otherwise,
or a line that says nothing is put between the others. -/
inductive Relaid : Bytes → Bytes → Prop
  | returns {text} : Relaid text (withReturns text)
  | line {text text' front line line' back} : LineRelaid line line' →
      text.splitOn Byte.lf = front ++ line :: back →
      text'.splitOn Byte.lf = front ++ line' :: back → Relaid text text'
  | insert {text text' front line back} : Remainder line →
      text.splitOn Byte.lf = front ++ back →
      text'.splitOn Byte.lf = front ++ line :: back → Relaid text text'

section
variable {s t : Bytes}

theorem uncommentedFrom_of_hash_not_mem (q : Quoting) (h : Byte.hash ∉ s) :
    uncommentedFrom q s = s := by
  induction s generalizing q with
  | nil => rfl
  | cons b s ih =>
      rw [List.mem_cons, not_or] at h
      rw [uncommentedFrom, if_neg fun hcut => h.1 hcut.2.symm, ih _ h.2]

/-- What has no hash in it is kept at the end of a line, or it belongs to the comment. -/
theorem uncommentedFrom_append (q : Quoting) (s : Bytes) (h : Byte.hash ∉ t) :
    uncommentedFrom q (s ++ t) = uncommentedFrom q s ++ t ∨
      uncommentedFrom q (s ++ t) = uncommentedFrom q s := by
  induction s generalizing q with
  | nil => exact .inl (uncommentedFrom_of_hash_not_mem q h)
  | cons b s ih =>
      rw [List.cons_append, uncommentedFrom, uncommentedFrom]
      split
      · exact .inr rfl
      · exact (ih (q.next b)).imp (congrArg (b :: ·)) (congrArg (b :: ·))

/-- What is cut off a line is its comment. -/
theorem exists_comment (q : Quoting) (line : Bytes) :
    line = uncommentedFrom q line ∨
      ∃ text, line = uncommentedFrom q line ++ Byte.hash :: text := by
  induction line generalizing q with
  | nil => exact .inl rfl
  | cons b line ih =>
      rw [uncommentedFrom]
      split
      · rename_i hcut
        exact .inr ⟨line, hcut.2 ▸ rfl⟩
      · rcases ih (q.next b) with hline | ⟨text, hline⟩
        · exact .inl (congrArg (b :: ·) hline)
        · exact .inr ⟨text, congrArg (b :: ·) hline⟩

theorem Remainder.behind (h : Remainder t) (hs : Blanks s) : Remainder (s ++ t) := by
  cases h with
  | blanks ht => exact .blanks (hs.append ht)
  | comment ht =>
      rw [← List.append_assoc]
      exact .comment (hs.append ht)

theorem Remainder.commented (h : Remainder s) (text : Bytes) :
    Remainder (s ++ Byte.hash :: text) := by
  cases h with
  | blanks hs => exact .comment hs
  | comment hs =>
      rw [List.append_assoc, List.cons_append]
      exact .comment hs

/-- A line that says nothing starts with nothing but the mark of a comment. -/
theorem Remainder.dropWhile_ne (h : Remainder s) {b : UInt8} (hb : b ≠ Byte.hash)
    (rest : Bytes) : s.dropWhile Byte.isBlank ≠ b :: rest := by
  cases h with
  | blanks hs =>
      rw [(blanks_iff_dropWhile s).mp hs]
      exact List.cons_ne_nil _ _ ∘ Eq.symm
  | comment hs =>
      rw [List.dropWhile_append_of_pos hs.isBlank, List.dropWhile_cons_of_neg (by decide)]
      exact fun heq => hb (List.cons.inj heq).1.symm

end

namespace Entry

/-- Blanks at the ends change nothing in any line, erroneous or not. -/
theorem ofLine_around {start back : Bytes} (hstart : Blanks start) (hback : Blanks back)
    (s : Bytes) : ofLine (start ++ s ++ back) = ofLine s := by
  have hfree : Byte.hash ∉ back := not_mem_blanks hback (by decide)
  have htrim : Bytes.trim (uncommented (s ++ back)) = Bytes.trim (uncommented s) := by
    rcases uncommentedFrom_append .outside s hfree with hkept | hgone
    · rw [uncommented, hkept, ← uncommented]
      exact Bytes.trim_around blanks_nil hback (uncommented s)
    · rw [uncommented, hgone, uncommented]
  have hcut : uncommented (start ++ (s ++ back)) = start ++ uncommented (s ++ back) :=
    skips_blanks hstart (s ++ back)
  have haround := Bytes.trim_around hstart blanks_nil (uncommented (s ++ back))
  rw [List.append_nil] at haround
  rw [ofLine, List.append_assoc, hcut, haround, htrim, ofLine]

/-- A line that is read is an entry between blanks and what may follow. -/
theorem exists_parts {line : Bytes} {entry : Entry} (h : ofLine line = .ok entry) :
    ∃ start s back, Blanks start ∧ Spelled s entry ∧ Remainder back ∧
      line = start ++ s ++ back := by
  obtain ⟨start, blanks, hstart, hblanks, hcut⟩ := Bytes.exists_trim (uncommented line)
  have hspelled := (ofLine_eq_ok_iff line entry).mp h
  rcases exists_comment .outside line with hline | ⟨text, hline⟩
  · rw [← uncommented] at hline
    exact ⟨start, _, blanks, hstart, hspelled, .blanks hblanks, hline.trans hcut⟩
  · rw [← uncommented] at hline
    refine ⟨start, _, blanks ++ Byte.hash :: text, hstart, hspelled, .comment hblanks, ?_⟩
    rw [← List.append_assoc, ← hcut]
    exact hline

/-- A line that starts with a bracket is read as a header. -/
theorem exists_header {start rest : Bytes} {entry : Entry} (hstart : Blanks start)
    (h : ofLine (start ++ Byte.openBracket :: rest) = .ok entry) :
    ∃ before name after back, Blanks before ∧ isName name = true ∧ Blanks after ∧
      Remainder back ∧ entry = .header name ∧
      rest = before ++ name ++ after ++ Byte.closeBracket :: back := by
  obtain ⟨indent, s, back, hindent, hspelled, hback, hline⟩ := exists_parts h
  have hdrop : (start ++ Byte.openBracket :: rest).dropWhile Byte.isBlank =
      Byte.openBracket :: rest := by
    rw [List.dropWhile_append_of_pos hstart.isBlank, List.dropWhile_cons_of_neg (by decide)]
  rw [hline] at hdrop
  by_cases hne : s = []
  · rw [hne, List.append_nil] at hdrop
    exact absurd hdrop ((hback.behind hindent).dropWhile_ne (by decide) rest)
  rw [hspelled.tight.dropWhile_eq hne hindent] at hdrop
  cases hspelled with
  | nothing => exact absurd rfl hne
  | header hbefore hname hafter =>
      refine ⟨_, _, _, back, hbefore, hname, hafter, hback, rfl, ?_⟩
      simpa using (List.cons.inj hdrop).2.symm
  | @assignment key before after v value hkey _ _ _ =>
      -- No name starts with a bracket.
      cases key with
      | nil => exact absurd rfl ((isName_iff []).mp hkey).1
      | cons b key =>
          have hb : b = Byte.openBracket := (List.cons.inj hdrop).1
          exact absurd (hb ▸ List.mem_cons_self) (not_mem_name hkey (b := Byte.openBracket) rfl)

section
variable {front before after before' after' back : Bytes}

/-- The blanks around the first equals sign of an assignment may be others. -/
theorem ofLine_equals {key : Bytes} {value : Value} (hfront : Byte.equals ∉ front)
    (h : ofLine (front ++ before ++ Byte.equals :: (after ++ back)) =
      .ok (.assignment key value))
    (hbefore : Blanks before) (hafter : Blanks after) (hbefore' : Blanks before')
    (hafter' : Blanks after') :
    ofLine (front ++ before' ++ Byte.equals :: (after' ++ back)) =
      .ok (.assignment key value) := by
  obtain ⟨start, s, rest, hstart, hspelled, hrest, hparts⟩ := exists_parts h
  obtain _ | _ | @⟨_, gap, gap', v, _, hkey, hgap, hgap', hvalue⟩ := hspelled
  -- The equals sign of the entry is the first one as well.
  have hleft : Byte.equals ∉ front ++ before := by
    rw [List.mem_append, not_or]
    exact ⟨hfront, not_mem_blanks hbefore (by decide)⟩
  have hright : Byte.equals ∉ start ++ key ++ gap := by
    rw [List.mem_append, List.mem_append, not_or, not_or]
    exact ⟨⟨not_mem_blanks hstart (by decide), not_mem_name hkey (by decide)⟩,
      not_mem_blanks hgap (by decide)⟩
  have hcut : front ++ before ++ Byte.equals :: (after ++ back) =
      start ++ key ++ gap ++ Byte.equals :: (gap' ++ v ++ rest) := by simpa using hparts
  obtain ⟨hkeys, hvalues⟩ := first_cut_inj hleft hright hcut
  have hname : Bytes.trim front = key := by
    rw [← Bytes.trim_around blanks_nil hbefore, List.nil_append, hkeys,
      Bytes.trim_append hstart (tight_name hkey) hgap]
  have hdrop : back.dropWhile Byte.isBlank = v ++ rest := by
    rw [← hvalue.tight.dropWhile_eq hvalue.ne_nil hgap', ← hvalues,
      List.dropWhile_append_of_pos hafter.isBlank]
  obtain ⟨indent, trailing, hindent, htrailing, hfrontEq⟩ := Bytes.exists_trim front
  have hlead : Blanks (back.takeWhile Byte.isBlank) :=
    blanks_of_isBlank fun b hb => List.mem_takeWhile_imp hb
  have hbackEq : back = back.takeWhile Byte.isBlank ++ (v ++ rest) := by
    rw [← hdrop, List.takeWhile_append_dropWhile]
  have hnew := ofLine_of_spelled hindent
    (.assignment hkey (htrailing.append hbefore') (hafter'.append hlead) hvalue) hrest
  rw [hname] at hfrontEq
  rw [hfrontEq, hbackEq]
  simpa using hnew

/-- The blanks inside the brackets of a header may be others. -/
theorem ofLine_brackets {start s : Bytes} {entry : Entry} (hstart : Blanks start)
    (hs : Byte.closeBracket ∉ s)
    (h : ofLine (start ++ Byte.openBracket ::
      (before ++ s ++ after ++ Byte.closeBracket :: back)) = .ok entry)
    (hbefore : Blanks before) (hafter : Blanks after) (hbefore' : Blanks before')
    (hafter' : Blanks after') :
    ofLine (start ++ Byte.openBracket ::
      (before' ++ s ++ after' ++ Byte.closeBracket :: back)) = .ok entry := by
  obtain ⟨gap, name, gap', rest, hgap, hname, hgap', hrest, rfl, hinner⟩ := exists_header hstart h
  have hleft : Byte.closeBracket ∉ before ++ s ++ after := by
    rw [List.mem_append, List.mem_append, not_or, not_or]
    exact ⟨⟨not_mem_blanks hbefore (by decide), hs⟩, not_mem_blanks hafter (by decide)⟩
  have hright : Byte.closeBracket ∉ gap ++ name ++ gap' := by
    rw [List.mem_append, List.mem_append, not_or, not_or]
    exact ⟨⟨not_mem_blanks hgap (by decide), not_mem_name hname (by decide)⟩,
      not_mem_blanks hgap' (by decide)⟩
  obtain ⟨hnames, rfl⟩ := first_cut_inj hleft hright hinner
  have htrim : Bytes.trim s = name := by
    rw [← Bytes.trim_around hbefore hafter, hnames,
      Bytes.trim_append hgap (tight_name hname) hgap']
  obtain ⟨indent, trailing, hindent, htrailing, hsEq⟩ := Bytes.exists_trim s
  have hnew := ofLine_of_spelled hstart
    (.header (hbefore'.append hindent) hname (htrailing.append hafter')) hrest
  rw [htrim] at hsEq
  rw [hsEq]
  simpa using hnew

end

/-- A comment may be put behind whatever is read. -/
theorem ofLine_commented {line : Bytes} {entry : Entry} (h : ofLine line = .ok entry)
    (text : Bytes) : ofLine (line ++ Byte.hash :: text) = .ok entry := by
  obtain ⟨start, s, back, hstart, hspelled, hback, rfl⟩ := exists_parts h
  rw [List.append_assoc]
  exact ofLine_of_spelled hstart hspelled (hback.commented text)

/-- A line without an entry says nothing. -/
theorem ofLine_remainder {line : Bytes} (h : Remainder line) : ofLine line = .ok .nothing :=
  ofLine_of_spelled blanks_nil .nothing h

end Entry

/-- A change of the layout of a line leaves its entry as it is. -/
theorem LineRelaid.ofLine_eq {line line' : Bytes} (h : LineRelaid line line') {entry : Entry}
    (hline : Entry.ofLine line = .ok entry) : Entry.ofLine line' = .ok entry := by
  cases h with
  | ends hstart hback hstart' hback' =>
      rw [Entry.ofLine_around hstart hback] at hline
      rwa [Entry.ofLine_around hstart' hback']
  | equals hfront hassign hbefore hafter hbefore' hafter' =>
      rw [← hline, hassign]
      exact Entry.ofLine_equals hfront hassign hbefore hafter hbefore' hafter'
  | brackets hstart hs hbefore hafter hbefore' hafter' =>
      exact Entry.ofLine_brackets hstart hs hline hbefore hafter hbefore' hafter'
  | comment => exact Entry.ofLine_commented hline _

/-- The second list has the entries of the first and further lines that say nothing, as far as the
first list can be read. -/
inductive Alike : List Bytes → List Bytes → Prop
  | nil : Alike [] []
  | cons {line line' rest rest'} :
      (∀ entry, Entry.ofLine line = .ok entry → Entry.ofLine line' = .ok entry) →
      Alike rest rest' → Alike (line :: rest) (line' :: rest')
  | skip {line rest rest'} : Entry.ofLine line = .ok .nothing →
      Alike rest rest' → Alike rest (line :: rest')

theorem Alike.refl (lines : List Bytes) : Alike lines lines := by
  induction lines with
  | nil => exact .nil
  | cons line rest ih => exact .cons (fun _ hline => hline) ih

theorem Alike.behind {lines lines' : List Bytes} (h : Alike lines lines') (front : List Bytes) :
    Alike (front ++ lines) (front ++ lines') := by
  induction front with
  | nil => exact h
  | cons line front ih => exact .cons (fun _ hline => hline) ih

theorem alike_withReturns (text : Bytes) :
    Alike (text.splitOn Byte.lf) ((withReturns text).splitOn Byte.lf) := by
  have hkeep {line : Bytes} (h : Byte.lf ∉ line) : withReturns line = line := by
    rw [withReturns]
    induction line with
    | nil => rfl
    | cons b line ih =>
        rw [List.mem_cons, not_or] at h
        rw [List.flatMap_cons, if_neg (Ne.symm h.1), ih h.2, List.singleton_append]
  induction text using lf_induction with
  | last line h =>
      rw [hkeep h]
      exact .refl _
  | more line rest h ih =>
      have hreturn : Byte.lf ∉ line ++ [Byte.cr] := by
        rw [List.mem_append, not_or]
        exact ⟨h, by decide⟩
      have hline : withReturns (line ++ Byte.lf :: rest) =
          line ++ [Byte.cr] ++ Byte.lf :: withReturns rest := by
        rw [withReturns, List.flatMap_append, List.flatMap_cons, if_pos rfl, ← withReturns,
          ← withReturns, hkeep h, List.append_assoc]
        rfl
      rw [hline, List.splitOn_append_cons_self_of_not_mem h,
        List.splitOn_append_cons_self_of_not_mem hreturn]
      refine .cons (fun entry hentry => ?_) ih
      have hblank : Blanks [Byte.cr] := by decide
      exact (Entry.ofLine_around blanks_nil hblank line).trans hentry

theorem Relaid.alike {text text' : Bytes} (h : Relaid text text') :
    Alike (text.splitOn Byte.lf) (text'.splitOn Byte.lf) := by
  cases h with
  | returns => exact alike_withReturns text
  | line hline htext htext' =>
      rw [htext, htext']
      exact .behind (.cons (fun _ => hline.ofLine_eq) (.refl _)) _
  | insert hline htext htext' =>
      rw [htext, htext']
      exact .behind (.skip (Entry.ofLine_remainder hline) (.refl _)) _

namespace Document

/-- Lines with the same entries set up the same values. -/
theorem readFrom_alike {lines lines' : List Bytes} (h : Alike lines lines') (number number' : Nat)
    (header : Bytes) {d d' : Document} (hvalues : d'.values = d.values)
    (herror : d'.error = d.error) (hread : (readFrom number header d lines).error = none) :
    (readFrom number' header d' lines').error = none ∧
      (readFrom number' header d' lines').values = (readFrom number header d lines).values := by
  induction h generalizing number number' header d d' with
  | nil => exact ⟨herror.trans hread, hvalues⟩
  | @cons line line' rest rest' hline _ ih =>
      cases hentry : Entry.ofLine line with
      | error e =>
          rw [readFrom, hentry] at hread
          cases hread
      | ok entry =>
          have hentry' := hline entry hentry
          cases entry with
          | nothing =>
              simp only [readFrom, hentry, hentry'] at hread ⊢
              exact ih _ _ _ hvalues herror hread
          | header name =>
              simp only [readFrom, hentry, hentry'] at hread ⊢
              exact ih _ _ _ hvalues herror hread
          | assignment key value =>
              simp only [readFrom, hentry, hentry'] at hread ⊢
              exact ih _ _ _ (congrArg (Table.put _ _) hvalues) herror hread
  | skip hline _ ih =>
      rw [readFrom, hline]
      exact ih _ _ _ hvalues herror hread

theorem readNamed_accepted_iff (name text : Bytes) (old : List Bytes) :
    (readNamed name text old).1.errorMessage? name = none ↔
      (readFrom 1 [] {} (text.splitOn Byte.lf)).error = none := by
  rw [readNamed, errorMessage?, Option.map_eq_none_iff, read_eq_readFrom]

/-- A text that is accepted is accepted in every other layout, and the values are the same. -/
theorem readNamed_relaid {text text' : Bytes} (h : Relation.ReflTransGen Relaid text text')
    {name : Bytes} {old : List Bytes}
    (haccepted : (readNamed name text old).1.errorMessage? name = none)
    (name' : Bytes) (old' : List Bytes) :
    (readNamed name' text' old').1.errorMessage? name' = none ∧
      (readNamed name' text' old').1.values = (readNamed name text old).1.values := by
  rw [readNamed_accepted_iff] at haccepted ⊢
  have hvalues (text name : Bytes) (old : List Bytes) : (readNamed name text old).1.values =
      (readFrom 1 [] {} (text.splitOn Byte.lf)).values := by
    rw [readNamed, read_eq_readFrom]
  rw [hvalues, hvalues]
  induction h with
  | refl => exact ⟨haccepted, rfl⟩
  | tail _ hstep ih =>
      have hnext := readFrom_alike hstep.alike 1 1 [] rfl rfl ih.1
      exact ⟨hnext.1, hnext.2.trans ih.2⟩

/-- A string of marks, laid out otherwise around it, and a comment that opens a string. -/
theorem readNamed_relaid_around_marks :
    let text := utf8 "[diag]\nlang=\"#=\"\n"
    let text' := withReturns (utf8 "\t# note\n[ diag\t]\nlang = \"#=\"# \"\n")
    Relation.ReflTransGen Relaid text text' ∧
      (readNamed (utf8 "a.toml") text []).1.errorMessage? (utf8 "a.toml") = none ∧
      (readNamed (utf8 "b.toml") text' []).1.values =
        [(utf8 "diag.lang", .text (utf8 "#="))] := by
  intro text text'
  let spaced := utf8 "[diag]\nlang = \"#=\"\n"
  let commented := utf8 "[diag]\nlang = \"#=\"# \"\n"
  let widened := utf8 "[ diag\t]\nlang = \"#=\"# \"\n"
  have hassign : Entry.ofLine (utf8 "lang=\"#=\"") =
      .ok (.assignment (utf8 "lang") (.text (utf8 "#="))) := by decide +kernel
  have hspaced : Relaid text spaced := by
    have hline : LineRelaid (utf8 "lang=\"#=\"") (utf8 "lang = \"#=\"") :=
      @LineRelaid.equals (utf8 "lang") [] [] [0x20] [0x20] (utf8 "\"#=\"") _ _ (by decide) hassign
        (by decide) (by decide) (by decide) (by decide)
    exact @Relaid.line _ _ [utf8 "[diag]"] _ _ [[]] hline (by decide +kernel) (by decide +kernel)
  have hcommented : Relaid spaced commented := by
    have hline : LineRelaid (utf8 "lang = \"#=\"") (utf8 "lang = \"#=\"# \"") :=
      @LineRelaid.comment (utf8 "lang = \"#=\"") (utf8 " \"")
    exact @Relaid.line _ _ [utf8 "[diag]"] _ _ [[]] hline (by decide +kernel) (by decide +kernel)
  have hwidened : Relaid commented widened := by
    have hline : LineRelaid (utf8 "[diag]") (utf8 "[ diag\t]") :=
      @LineRelaid.brackets [] [] [] [0x20] [0x09] (utf8 "diag") [] (by decide) (by decide)
        (by decide) (by decide) (by decide) (by decide)
    exact @Relaid.line _ _ [] _ _ [utf8 "lang = \"#=\"# \"", []] hline (by decide +kernel)
      (by decide +kernel)
  have hnoted : Relaid widened (utf8 "\t# note\n[ diag\t]\nlang = \"#=\"# \"\n") := by
    have hline : Remainder (utf8 "\t# note") :=
      @Remainder.comment [0x09] (utf8 " note") (by decide)
    exact @Relaid.insert _ _ [] _ (widened.splitOn Byte.lf) hline rfl (by decide +kernel)
  have hchain : Relation.ReflTransGen Relaid text text' :=
    ((((Relation.ReflTransGen.single hspaced).tail hcommented).tail hwidened).tail hnoted).tail
      .returns
  have haccepted : (readNamed (utf8 "a.toml") text []).1.errorMessage? (utf8 "a.toml") = none := by
    decide +kernel
  have hvalues : (readNamed (utf8 "a.toml") text []).1.values =
      [(utf8 "diag.lang", .text (utf8 "#="))] := by decide +kernel
  exact ⟨hchain, haccepted, (readNamed_relaid hchain haccepted _ _).2.trans hvalues⟩

end Document
end Linewise.Settings
