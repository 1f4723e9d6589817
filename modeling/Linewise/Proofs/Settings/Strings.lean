import Linewise.Proofs.Listing.Lines
import Linewise.Proofs.Settings.Uncommented
/-!
Strings in settings files. Any bytes can be written as a string: a backslash, a quote and a line feed
are escaped, a tab may be, and everything else stands for itself. Such a string is read back whole,
and neither a comment behind it nor the blanks around it change anything.
-/
namespace Linewise.Settings

/-- A byte as it is written between quotes. Either spelling of a tab will do. -/
def escapeByte (tab : Bool) (b : UInt8) : Bytes :=
  if b = Byte.backslash then [Byte.backslash, Byte.backslash]
  else if b = Byte.quote then [Byte.backslash, Byte.quote]
  else if b = Byte.lf then [Byte.backslash, 0x6E]
  else if tab ∧ b = Byte.tab then [Byte.backslash, 0x74]
  else [b]

/-- A text as it is written between quotes. At each position a tab is escaped or not, as told. -/
def escape (tabs : Nat → Bool) (s : Bytes) : Bytes :=
  s.zipIdx.flatMap fun e => escapeByte (tabs e.2) e.1

theorem escapeByte_spelled (tab : Bool) (b : UInt8) : ByteSpelled (escapeByte tab b) b := by
  unfold escapeByte
  split_ifs with hbackslash hquote hlf htab
  · exact hbackslash ▸ .backslash
  · exact hquote ▸ .quote
  · exact hlf ▸ .lf
  · exact htab.2 ▸ .tab
  · exact .plain hquote hbackslash

theorem escape_spelled (tabs : Nat → Bool) (s : Bytes) : StringSpelled (escape tabs s) s := by
  unfold escape
  generalize 0 = k
  induction s generalizing k with
  | nil => exact .nil
  | cons b s ih =>
      rw [List.zipIdx_cons, List.flatMap_cons]
      exact .cons (escapeByte_spelled _ b) (ih (k + 1))

theorem lf_not_mem_escapeByte (tab : Bool) (b : UInt8) : Byte.lf ∉ escapeByte tab b := by
  unfold escapeByte
  split_ifs with hbackslash hquote hlf htab
  · decide
  · decide
  · decide
  · decide
  · rw [List.mem_singleton]
    exact Ne.symm hlf

theorem lf_not_mem_escape (tabs : Nat → Bool) (s : Bytes) : Byte.lf ∉ escape tabs s := by
  intro hmem
  obtain ⟨e, _, he⟩ := List.mem_flatMap.mp hmem
  exact lf_not_mem_escapeByte _ _ he

/-- Blanks for the four gaps of a line: at its start, on either side of what stands in its middle,
and at its end. -/
structure Gaps where
  start : Bytes
  before : Bytes
  after : Bytes
  back : Bytes
  start_blank : Blanks start
  before_blank : Blanks before
  after_blank : Blanks after
  back_blank : Blanks back

namespace Gaps

/-- The line that opens a section. -/
def headerLine (g : Gaps) (name : Bytes) : Bytes :=
  g.start ++ Byte.openBracket :: (g.before ++ name ++ g.after ++ [Byte.closeBracket]) ++ g.back

/-- The line that assigns a string, from what stands between its quotes. -/
def stringLine (g : Gaps) (key body : Bytes) : Bytes :=
  g.start ++ (key ++ g.before ++
    Byte.equals :: (g.after ++ Byte.quote :: (body ++ [Byte.quote]))) ++ g.back

variable (g : Gaps)

theorem ofLine_headerLine {name : Bytes} (hname : isName name = true) :
    Entry.ofLine (g.headerLine name) = .ok (.header name) :=
  Entry.ofLine_of_spelled g.start_blank (.header g.before_blank hname g.after_blank)
    (.blanks g.back_blank)

section
variable {key body s : Bytes} (hkey : isName key = true) (hbody : StringSpelled body s)
include hkey hbody

theorem ofLine_stringLine :
    Entry.ofLine (g.stringLine key body) = .ok (.assignment key (.text s)) :=
  Entry.ofLine_of_spelled g.start_blank
    (.assignment hkey g.before_blank g.after_blank (.text hbody)) (.blanks g.back_blank)

/-- With a comment the line is read as without it. -/
theorem ofLine_stringLine_comment (comment : Bytes) :
    Entry.ofLine (g.stringLine key body ++ Byte.hash :: comment) =
      .ok (.assignment key (.text s)) := by
  rw [stringLine, List.append_assoc]
  exact Entry.ofLine_of_spelled g.start_blank
    (.assignment hkey g.before_blank g.after_blank (.text hbody)) (.comment g.back_blank)

end

theorem lf_not_mem :
    Byte.lf ∉ g.start ∧ Byte.lf ∉ g.before ∧ Byte.lf ∉ g.after ∧ Byte.lf ∉ g.back := by
  have hfree {s : Bytes} (hs : Blanks s) : Byte.lf ∉ s := not_mem_blanks hs (by decide)
  exact ⟨hfree g.start_blank, hfree g.before_blank, hfree g.after_blank, hfree g.back_blank⟩

theorem lf_not_mem_headerLine {name : Bytes} (hname : isName name = true) :
    Byte.lf ∉ g.headerLine name := by
  obtain ⟨hstart, hbefore, hafter, hback⟩ := g.lf_not_mem
  have hlf : Byte.lf ∉ name := not_mem_name hname (by decide)
  simp only [headerLine, List.mem_append, List.mem_cons, List.not_mem_nil, or_false, not_or]
  exact ⟨⟨hstart, by decide, ⟨⟨hbefore, hlf⟩, hafter⟩, by decide⟩, hback⟩

theorem lf_not_mem_stringLine {key : Bytes} (hkey : isName key = true) {body : Bytes}
    (hbody : Byte.lf ∉ body) : Byte.lf ∉ g.stringLine key body := by
  obtain ⟨hstart, hbefore, hafter, hback⟩ := g.lf_not_mem
  have hlf : Byte.lf ∉ key := not_mem_name hkey (by decide)
  simp only [stringLine, List.mem_append, List.mem_cons, List.not_mem_nil, or_false, not_or]
  exact ⟨⟨hstart, ⟨hlf, hbefore⟩, by decide, hafter, by decide, hbody, by decide⟩, hback⟩

end Gaps

namespace Document

/-- A section with one assignment, whose line may or may not be ended. -/
theorem read_assignment {opening line header key : Bytes} {value : Value}
    (hopening : Entry.ofLine opening = .ok (.header header)) (hfree : Byte.lf ∉ opening)
    (hheader : isName header = true) (hline : Entry.ofLine line = .ok (.assignment key value))
    (hfree' : Byte.lf ∉ line) {ending : Bytes} (hending : ending = [] ∨ ending = [Byte.lf]) :
    read (opening ++ Byte.lf :: (line ++ ending)) =
      { values := [(header ++ [Byte.dot] ++ key, value)] } := by
  have hne : line ≠ [] := by
    rintro rfl
    cases hline
  have hlines : Newline.lfLines (line ++ ending) = [line] := by
    rcases hending with rfl | rfl
    · rw [List.append_nil, Newline.lfLines_last hfree' hne]
    · rw [Newline.lfLines_append hfree', Newline.lfLines_nil]
  have hkey : fullKey header key = header ++ [Byte.dot] ++ key := by
    have hnonempty : header ≠ [] := ((isName_iff header).mp hheader).1
    rw [fullKey, if_neg (by simpa using hnonempty)]
  rw [read, ← Newline.lfLines_eq, Newline.lfLines_append hfree, hlines]
  simp only [readFrom, hopening, hline, hkey]
  rfl

/-- Any text survives in a string: the file has the one entry and nothing to complain of, whatever
the blanks are and whatever comment follows. -/
theorem readNamed_string {header key : Bytes} (hheader : isName header = true)
    (hkey : isName key = true) (g g' : Gaps) (tabs : Nat → Bool) (s : Bytes) {comment : Bytes}
    (hcomment : Byte.lf ∉ comment) {ending : Bytes} (hending : ending = [] ∨ ending = [Byte.lf])
    (name : Bytes) (old : List Bytes) :
    let line := g'.stringLine key (escape tabs s)
    ∀ written ∈ [line ++ Byte.hash :: comment, line],
      readNamed name (g.headerLine header ++ Byte.lf :: (written ++ ending)) old =
        ({ values := [(header ++ [Byte.dot] ++ key, .text s)] }, old) := by
  intro line written hwritten
  have hbody : StringSpelled (escape tabs s) s := escape_spelled tabs s
  have hfree : Byte.lf ∉ line := g'.lf_not_mem_stringLine hkey (lf_not_mem_escape tabs s)
  have hread : Entry.ofLine written = .ok (.assignment key (.text s)) ∧ Byte.lf ∉ written := by
    simp only [List.mem_cons, List.not_mem_nil, or_false] at hwritten
    rcases hwritten with rfl | rfl
    · refine ⟨g'.ofLine_stringLine_comment hkey hbody comment, ?_⟩
      rw [List.mem_append, List.mem_cons, not_or, not_or]
      exact ⟨hfree, by decide, hcomment⟩
    · exact ⟨g'.ofLine_stringLine hkey hbody, hfree⟩
  have hopening := g.ofLine_headerLine hheader
  rw [readNamed, read_assignment hopening (g.lf_not_mem_headerLine hheader) hheader hread.1 hread.2
    hending]
  exact congrArg _ (List.append_nil old)

/-- A string of everything that could mislead a reader, with a comment that opens a string. -/
theorem readNamed_string_of_marks :
    let g : Gaps := ⟨utf8 "\t", [], utf8 " ", utf8 " \t", by decide, by decide, by decide, by decide⟩
    let s := utf8 "]=#\" \\\n\t" ++ [Byte.cr, Byte.lf, 0xFF, Byte.backslash]
    let written := g.stringLine (utf8 "cpu") (escape (· = 7) s) ++ Byte.hash :: utf8 " \"c"
    readNamed (utf8 "a.toml") (g.headerLine (utf8 "llvm") ++ Byte.lf :: (written ++ [Byte.lf])) [] =
      ({ values := [(utf8 "llvm" ++ [Byte.dot] ++ utf8 "cpu", .text s)] }, []) := by
  intro g s written
  exact readNamed_string (by decide) (by decide) g g (· = 7) s (by decide) (.inr rfl) _ _ written
    List.mem_cons_self

end Document
end Linewise.Settings
