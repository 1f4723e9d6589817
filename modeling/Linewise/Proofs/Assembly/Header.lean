import Linewise.Proofs.Assembly.Lines
/-!
The header of a lowered text. Below it the text does not depend on the header's options. The options
are written into it as they are, so it says what they are exactly if they hold nothing that an
assembler would take for something else.
-/
namespace Linewise

namespace Newline

/-- Lines are told apart by their line feeds, whatever follows them. -/
theorem flatMap_append_inj {ls ls' : List Bytes} (h : ∀ line ∈ ls, Byte.lf ∉ line)
    (h' : ∀ line ∈ ls', Byte.lf ∉ line) (hlength : ls.length = ls'.length) {rest rest' : Bytes}
    (heq : ls.flatMap (· ++ [Byte.lf]) ++ rest = ls'.flatMap (· ++ [Byte.lf]) ++ rest') :
    ls = ls' ∧ rest = rest' := by
  have hsplit := congrArg (List.splitOn Byte.lf) heq
  rw [splitOn_flatMap_append h, splitOn_flatMap_append h'] at hsplit
  obtain ⟨rfl, -⟩ := List.append_inj hsplit hlength
  exact ⟨rfl, List.append_cancel_left heq⟩

theorem count_flatMap (ls : List Bytes) :
    (ls.flatMap (· ++ [Byte.lf])).count Byte.lf = ls.length + ls.flatten.count Byte.lf := by
  induction ls with
  | nil => rfl
  | cons line ls ih =>
      rw [List.flatMap_cons, List.count_append, List.count_append, ih, List.flatten_cons,
        List.count_append, List.length_cons, List.count_singleton_self]
      omega

/-- Of two equally long lists that are written alike, one cannot have lines with line feeds. -/
theorem lf_not_mem_of_flatMap_eq {ls ls' : List Bytes} (h : ∀ line ∈ ls, Byte.lf ∉ line)
    (hlength : ls.length = ls'.length)
    (heq : ls.flatMap (· ++ [Byte.lf]) = ls'.flatMap (· ++ [Byte.lf])) :
    ∀ line ∈ ls', Byte.lf ∉ line := by
  have hcount := congrArg (List.count Byte.lf) heq
  have hnone : ls.flatten.count Byte.lf = 0 := by
    rw [List.count_eq_zero, List.mem_flatten]
    rintro ⟨line, hline, hlf⟩
    exact h line hline hlf
  rw [count_flatMap, count_flatMap, hnone, hlength] at hcount
  intro line hline hlf
  have hpos : 0 < ls'.flatten.count Byte.lf :=
    List.count_pos_iff.mpr (List.mem_flatten.mpr ⟨line, hline, hlf⟩)
  omega

end Newline

/-- No backslash stands before two digits. -/
def NothingEscaped (s : Bytes) : Prop :=
  ∀ front h₁ h₂ back, s = front ++ Byte.backslash :: h₁ :: h₂ :: back →
    Byte.hexValue? h₁ = none ∨ Byte.hexValue? h₂ = none

theorem nothingEscaped_cons (b : UInt8) (s : Bytes) :
    NothingEscaped (b :: s) ↔
      (∀ h₁ h₂ back, b = Byte.backslash → s = h₁ :: h₂ :: back →
        Byte.hexValue? h₁ = none ∨ Byte.hexValue? h₂ = none) ∧ NothingEscaped s := by
  constructor
  · intro h
    constructor
    · rintro h₁ h₂ back rfl rfl
      exact h [] h₁ h₂ back rfl
    · rintro front h₁ h₂ back rfl
      exact h (b :: front) h₁ h₂ back rfl
  · rintro ⟨hhead, htail⟩ front h₁ h₂ back heq
    cases front with
    | nil =>
        obtain ⟨hb, hs⟩ := List.cons.inj heq
        exact hhead h₁ h₂ back hb hs
    | cons c front => exact htail front h₁ h₂ back (List.cons.inj heq).2

theorem length_unescape_le (s : Bytes) : (unescape s).length ≤ s.length := by
  fun_induction unescape s with
  | case1 h₁ h₂ rest v₁ v₂ hv₂ hv₁ ih => simp only [List.length_cons]; omega
  | case2 h₁ h₂ rest hnone ih => simp only [List.length_cons] at *; omega
  | case3 b h₁ h₂ rest hb ih => simp only [List.length_cons] at *; omega
  | case4 s hs => exact Nat.le_refl _

/-- A text decodes to itself exactly if there is nothing to decode. -/
theorem unescape_eq_self_iff (s : Bytes) : unescape s = s ↔ NothingEscaped s := by
  fun_induction unescape s with
  | case1 h₁ h₂ rest v₁ v₂ hv₂ hv₁ ih =>
      have hlength := length_unescape_le rest
      refine iff_of_false ?_ ?_
      · intro heq
        have hshort := congrArg List.length heq
        simp only [List.length_cons] at hshort
        omega
      · intro hnone
        rcases hnone [] h₁ h₂ rest rfl with hnone₁ | hnone₂
        · rw [hv₁] at hnone₁
          cases hnone₁
        · rw [hv₂] at hnone₂
          cases hnone₂
  | case2 h₁ h₂ rest hnone ih =>
      rw [List.cons_inj_right, ih, nothingEscaped_cons Byte.backslash, iff_and_self]
      intro _ h₁' h₂' back _ heq
      obtain ⟨rfl, hrest⟩ := List.cons.inj heq
      obtain ⟨rfl, -⟩ := List.cons.inj hrest
      cases hv₁ : Byte.hexValue? h₁ with
      | none => exact .inl rfl
      | some v₁ =>
          cases hv₂ : Byte.hexValue? h₂ with
          | none => exact .inr rfl
          | some v₂ => exact (hnone v₁ v₂ hv₁ hv₂).elim
  | case3 b h₁ h₂ rest hb ih =>
      rw [List.cons_inj_right, ih, nothingEscaped_cons b, iff_and_self]
      intro _ h₁' h₂' back hbackslash
      exact absurd hbackslash hb
  | case4 s hs =>
      refine iff_of_true rfl ?_
      intro front h₁ h₂ back heq
      -- Three bytes behind each other would have been read as such.
      rcases front with _ | ⟨c, _ | ⟨d, _ | ⟨e, front⟩⟩⟩
      · exact (hs _ _ _ _ heq).elim
      · exact (hs _ _ _ _ heq).elim
      · exact (hs _ _ _ _ heq).elim
      · exact (hs _ _ _ _ heq).elim

/-- A text that an assembler takes for itself between quotes. -/
structure Verbatim (s : Bytes) : Prop where
  lf : Byte.lf ∉ s
  quote : Byte.quote ∉ s
  escape : NothingEscaped s

theorem verbatim_iff (s : Bytes) :
    Verbatim s ↔ Byte.lf ∉ s ∧ Byte.quote ∉ s ∧ unescape s = s :=
  ⟨fun h => ⟨h.lf, h.quote, (unescape_eq_self_iff s).mpr h.escape⟩,
    fun ⟨hlf, hquote, hescape⟩ => ⟨hlf, hquote, (unescape_eq_self_iff s).mp hescape⟩⟩

/-- A line that gives a key a quoted value: no quote stands before the closing one, and what stands
between the quotes decodes to the value. -/
def Assigns (key : String) (value line : Bytes) : Prop :=
  ∃ body, line = utf8 key ++ utf8 " = \"" ++ body ++ utf8 "\"" ∧ Byte.quote ∉ body ∧
    unescape body = value

namespace AssemblyHeader

/-- The lines of a header that says what its options are: a comment, the name of the module, the
target if there is one, and nothing. -/
inductive Lines (h : AssemblyHeader) : List Bytes → Prop where
  | untargeted {comment source : Bytes} : h.target = [] → comment.head? = some Byte.semicolon →
      Assigns "source_filename" h.moduleName source → Lines h [comment, source, []]
  | targeted {comment source target : Bytes} : h.target ≠ [] →
      comment.head? = some Byte.semicolon → Assigns "source_filename" h.moduleName source →
      Assigns "target triple" h.target target → Lines h [comment, source, target, []]

/-- A text consists of these lines and no others. -/
def Says (h : AssemblyHeader) (text : Bytes) : Prop :=
  ∃ lines, h.Lines lines ∧ (∀ line ∈ lines, Byte.lf ∉ line) ∧
    text = lines.flatMap (· ++ [Byte.lf])

/-- What is written, with the line feeds taken out that the header puts in itself. -/
def rows (h : AssemblyHeader) : List Bytes :=
  [utf8 "; ModuleID = '" ++ h.moduleName ++ utf8 "'",
    utf8 "source_filename = \"" ++ h.moduleName ++ utf8 "\""] ++
    (if h.target = [] then [] else [utf8 "target triple = \"" ++ h.target ++ utf8 "\""]) ++ [[]]

theorem write_eq_rows (h : AssemblyHeader) : h.write = h.rows.flatMap (· ++ [Byte.lf]) := by
  have hcomment : utf8 "'\n" = utf8 "'" ++ [Byte.lf] := by decide
  have hquote : utf8 "\"\n" = utf8 "\"" ++ [Byte.lf] := by decide
  have hempty : utf8 "\n" = [Byte.lf] := by decide
  by_cases htarget : h.target = []
  · simp [write, rows, hcomment, hquote, hempty, htarget, Bytes.when]
  · simp [write, rows, hcomment, hquote, hempty, htarget, Bytes.when]

theorem lf_not_mem_rows_iff (h : AssemblyHeader) :
    (∀ line ∈ h.rows, Byte.lf ∉ line) ↔ Byte.lf ∉ h.moduleName ∧ Byte.lf ∉ h.target := by
  have hcomment : Byte.lf ∉ utf8 "; ModuleID = '" ∧ Byte.lf ∉ utf8 "'" := by decide
  have hsource : Byte.lf ∉ utf8 "source_filename = \"" := by decide
  have htriple : Byte.lf ∉ utf8 "target triple = \"" ∧ Byte.lf ∉ utf8 "\"" := by decide
  by_cases htarget : h.target = []
  · simp [rows, htarget, hcomment, hsource, htriple]
  · simp [rows, htarget, hcomment, hsource, htriple]

theorem Lines.length_eq {h : AssemblyHeader} {lines : List Bytes} (hl : h.Lines lines) :
    lines.length = h.rows.length := by
  cases hl with
  | untargeted htarget => simp [rows, htarget]
  | targeted htarget => simp [rows, htarget]

/-- A value that is written as it is has to be read as it is. -/
theorem assigns_raw_iff (key : String) (value : Bytes) :
    Assigns key value (utf8 key ++ utf8 " = \"" ++ value ++ utf8 "\"") ↔
      Byte.quote ∉ value ∧ unescape value = value := by
  constructor
  · rintro ⟨body, hline, hquote, hvalue⟩
    obtain rfl : value = body := List.append_cancel_left (List.append_cancel_right hline)
    exact ⟨hquote, hvalue⟩
  · rintro ⟨hquote, hvalue⟩
    exact ⟨value, rfl, hquote, hvalue⟩

theorem lines_rows_iff (h : AssemblyHeader) :
    h.Lines h.rows ↔ (Byte.quote ∉ h.moduleName ∧ unescape h.moduleName = h.moduleName) ∧
      Byte.quote ∉ h.target ∧ unescape h.target = h.target := by
  have hsource : utf8 "source_filename = \"" = utf8 "source_filename" ++ utf8 " = \"" := by decide
  have htriple : utf8 "target triple = \"" = utf8 "target triple" ++ utf8 " = \"" := by decide
  by_cases htarget : h.target = []
  · have hrows : h.rows = [utf8 "; ModuleID = '" ++ h.moduleName ++ utf8 "'",
        utf8 "source_filename" ++ utf8 " = \"" ++ h.moduleName ++ utf8 "\"", []] := by
      simp [rows, htarget, hsource]
    rw [← assigns_raw_iff "source_filename", hrows]
    constructor
    · intro hl
      cases hl with
      | untargeted _ _ hassigns => exact ⟨hassigns, by simp [htarget], by simp [htarget, unescape]⟩
    · rintro ⟨hassigns, -⟩
      exact .untargeted htarget rfl hassigns
  · have hrows : h.rows = [utf8 "; ModuleID = '" ++ h.moduleName ++ utf8 "'",
        utf8 "source_filename" ++ utf8 " = \"" ++ h.moduleName ++ utf8 "\"",
        utf8 "target triple" ++ utf8 " = \"" ++ h.target ++ utf8 "\"", []] := by
      simp [rows, htarget, hsource, htriple]
    rw [← assigns_raw_iff "source_filename", ← assigns_raw_iff "target triple", hrows]
    constructor
    · intro hl
      cases hl with
      | targeted _ _ hsource htriple => exact ⟨hsource, htriple⟩
    · rintro ⟨hsource, htriple⟩
      exact .targeted htarget rfl hsource htriple

/-- The header that is written says what its options are exactly if they can be written as they
are. -/
theorem says_write_iff (h : AssemblyHeader) :
    h.Says h.write ↔ Verbatim h.moduleName ∧ Verbatim h.target := by
  have hrows : h.Says h.write ↔ (∀ line ∈ h.rows, Byte.lf ∉ line) ∧ h.Lines h.rows := by
    rw [write_eq_rows]
    constructor
    · rintro ⟨lines, hlines, hlf, heq⟩
      have hfree := Newline.lf_not_mem_of_flatMap_eq hlf hlines.length_eq heq.symm
      have happend := congrArg (· ++ []) heq.symm
      obtain ⟨rfl, -⟩ := Newline.flatMap_append_inj hlf hfree hlines.length_eq happend
      exact ⟨hfree, hlines⟩
    · rintro ⟨hfree, hlines⟩
      exact ⟨h.rows, hlines, hfree, rfl⟩
  rw [hrows, lf_not_mem_rows_iff, lines_rows_iff, verbatim_iff, verbatim_iff]
  constructor
  · rintro ⟨⟨hlf, hlf'⟩, ⟨hquote, hescape⟩, hquote', hescape'⟩
    exact ⟨⟨hlf, hquote, hescape⟩, hlf', hquote', hescape'⟩
  · rintro ⟨⟨hlf, hquote, hescape⟩, hlf', hquote', hescape'⟩
    exact ⟨⟨hlf, hlf'⟩, ⟨hquote, hescape⟩, hquote', hescape'⟩

/-- A text is another one with a header that says what the options are in the place of the header
that says what they are by default. -/
def Fronts (h : AssemblyHeader) (text plain : Bytes) : Prop :=
  ∃ header fixed code, text = header ++ code ∧ plain = fixed ++ code ∧ h.Says header ∧
    ({} : AssemblyHeader).Says fixed

theorem says_write_default : ({} : AssemblyHeader).Says ({} : AssemblyHeader).write :=
  (says_write_iff {}).mpr
    ⟨(verbatim_iff _).mpr (by decide +kernel), (verbatim_iff _).mpr (by decide)⟩

/-- A header ends behind a fixed number of lines, so what it stands on is the same code. -/
theorem fronts_write_iff (h : AssemblyHeader) (code : Bytes) :
    h.Fronts (h.write ++ code) (({} : AssemblyHeader).write ++ code) ↔
      Verbatim h.moduleName ∧ Verbatim h.target := by
  rw [← says_write_iff]
  constructor
  · rintro ⟨header, fixed, code', htext, hplain, hsays, hfixed⟩
    obtain ⟨lines, hlines, hlf, rfl⟩ := hfixed
    have hfree := (lf_not_mem_rows_iff {}).mpr (by decide +kernel)
    rw [write_eq_rows] at hplain
    obtain ⟨-, rfl⟩ := Newline.flatMap_append_inj hfree hlf hlines.length_eq.symm hplain
    rwa [List.append_cancel_right htext]
  · intro hsays
    exact ⟨h.write, _, code, rfl, rfl, hsays, says_write_default⟩

end AssemblyHeader

/-- Whatever the options, an accepted listing is lowered to the same code, and the text above it is
a header that says what the options are exactly if neither holds a line feed, a quote or a
backslash before two hexadecimal digits. -/
theorem Listing.lower_fronts_iff {l : Listing} (hl : l.verify l.strictness = [])
    (h : AssemblyHeader) :
    ∃ text plain code, l.lower h = .ok text ∧ l.lower {} = .ok plain ∧
      text = h.write ++ code ∧ plain = ({} : AssemblyHeader).write ++ code ∧
      (h.Fronts text plain ↔ Verbatim h.moduleName ∧ Verbatim h.target) := by
  refine ⟨_, _, (Assembly.ofListing l).code, ?_, ?_, rfl, rfl, h.fronts_write_iff _⟩
  · simp [lower, hl]
  · simp [lower, hl]

theorem Listing.lower_fronts_iff_of_named_module :
    let h : AssemblyHeader := ⟨utf8 "hello.qs", utf8 "x86_64-unknown-linux-gnu"⟩
    let l : Listing := ⟨[⟨.append (utf8 "x"), 1⟩, ⟨.print, 2⟩, ⟨.halt, 0⟩], false, {}⟩
    l.verify l.strictness = [] ∧
      ∃ text plain, l.lower h = .ok text ∧ l.lower {} = .ok plain ∧ h.Fronts text plain := by
  intro h l
  have hl : l.verify l.strictness = [] := by decide
  obtain ⟨text, plain, _, htext, hplain, _, _, hfronts⟩ := Listing.lower_fronts_iff hl h
  refine ⟨hl, text, plain, htext, hplain, hfronts.mpr ⟨?_, ?_⟩⟩
  · exact (verbatim_iff _).mpr (by decide +kernel)
  · exact (verbatim_iff _).mpr (by decide +kernel)

/-- A quote in the target ends its string, and a line feed starts a line that nobody meant. -/
theorem Listing.lower_unfaithful_at_raw_target :
    let h : AssemblyHeader := { target := utf8 "a\"\nb" }
    let l : Listing := ⟨[⟨.append (utf8 "a\"b"), 1⟩, ⟨.print, 2⟩, ⟨.halt, 0⟩], false, {}⟩
    l.verify l.strictness = [] ∧
      ∃ text plain, l.lower h = .ok text ∧ l.lower {} = .ok plain ∧ ¬ h.Fronts text plain := by
  intro h l
  refine ⟨by decide, _, _, rfl, rfl, ?_⟩
  intro hfronts
  have hverbatim := ((h.fronts_write_iff _).mp hfronts).2
  exact hverbatim.lf (by decide)

end Linewise
