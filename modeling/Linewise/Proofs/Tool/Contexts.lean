import Linewise.Proofs.Display.Layout
import Linewise.Proofs.Tool.Agreement
/-!
The configured context. It is a number of any size, and what is shown of a source is computed from
its last 32 bits, with a position that wraps around once more. So a larger context shows no less as
long as it stays below what a word can hold together with the position of the line; beyond that it
may show anything that some smaller context shows.
-/
namespace Linewise

/-- A number that fits a word is kept when it becomes one. -/
theorem toNat_ofInt_of_lt {n : Int} (hpos : 0 ≤ n) (h : n < UInt32.size) :
    ((UInt32.ofInt n).toNat : Int) = n := by
  have hsize : (2 : Int) ^ 32 = UInt32.size := rfl
  rw [UInt32.ofInt, hsize, Int.emod_eq_of_lt hpos h, UInt32.toNat_ofNat_of_lt' (by omega)]
  exact Int.toNat_of_nonneg hpos

/-- Nothing, or a row of carets. -/
def CaretsOrNone (below : Bytes) : Prop :=
  below = [] ∨ ∃ width before carets,
    below = caretsBelow width before carets ∨ below = caretsBelow width before carets ++ [Byte.lf]

/-- The text is a heading and one numbered row for each of the lines, some with carets below. -/
def Draws (text heading : Bytes) (lines : List Line) : Prop :=
  ∃ width, ∃ rows : List (Line × Bytes), rows.map (·.1) = lines ∧
    (∀ row ∈ rows, CaretsOrNone row.2) ∧
    text = heading ++ rows.flatMap fun row => numberedRow width row.1 ++ [Byte.lf] ++ row.2

/-- A line that is drawn has its row in the text. -/
theorem Draws.row_mem {text heading : Bytes} {lines : List Line} (h : Draws text heading lines)
    {l : Line} (hl : l ∈ lines) : Decimal.ofWord l.number ++ utf8 " | " ++ l.text <:+: text := by
  obtain ⟨width, rows, rfl, _, rfl⟩ := h
  obtain ⟨row, hrow, rfl⟩ := List.mem_map.mp hl
  have hnumbered : Decimal.ofWord row.1.number ++ utf8 " | " ++ row.1.text <:+:
      numberedRow width row.1 ++ [Byte.lf] ++ row.2 :=
    ⟨Bytes.fill (width - (Decimal.ofWord row.1.number).length) Byte.space, [Byte.lf] ++ row.2,
      by simp only [numberedRow, List.append_assoc]⟩
  refine (hnumbered.trans ?_).trans (List.suffix_append heading _).isInfix
  exact List.infix_of_mem_flatten (List.mem_map_of_mem hrow)

namespace SourceFile

variable {f : SourceFile} {i : Nat}

theorem draws_renderLine {l : Line} {m : SourceMap} {d : Diagnostic}
    (hf : m.file d.span.file = f) (hl : f.lineAt? d.span.lo = some l) (language : Language) :
    Draws (d.renderLine language m) (d.heading language m) [l] := by
  have hshown : (f.snippet d.span).text = l.text ∧ (f.snippet d.span).line = l.number := by
    rw [snippet, hl]
    exact ⟨rfl, rfl⟩
  have hmargin : utf8 "  | " = Bytes.fill 1 Byte.space ++ utf8 " | " := by decide
  have hend : utf8 "\n" = [Byte.lf] := by decide
  refine ⟨0, [(l, caretsBelow 1 (f.snippet d.span).caretsBefore (f.snippet d.span).carets)], rfl,
    ?_, ?_⟩
  · intro row hrow
    obtain rfl := List.mem_singleton.mp hrow
    exact .inr ⟨_, _, _, .inl rfl⟩
  · have hunpadded : numberedRow 0 l = Decimal.ofWord l.number ++ utf8 " | " ++ l.text := by
      rw [numberedRow, Nat.zero_sub]
      rfl
    rw [Diagnostic.renderLine, hf, hshown.1, hshown.2, hmargin, hend, List.flatMap_singleton,
      hunpadded, caretsBelow]
    simp only [List.append_assoc]

/-- With any context the lines are drawn that its block has. -/
theorem draws_render (hlength : f.lines.length < UInt32.size) {m : SourceMap} {d : Diagnostic}
    (hf : m.file d.span.file = f) (hi : i < f.lines.length)
    (hindex : lineIndex f.lines d.span.lo = i) (language : Language) (context : UInt32) :
    Draws (d.render language m context) (d.heading language m) (f.excerpt i context) := by
  unfold Diagnostic.render
  split_ifs with hzero
  · have hl := List.getElem?_eq_getElem hi
    have hexcerpt : f.excerpt i context = [f.lines[i]] := by
      have hnone : context.toNat = 0 := by
        rw [hzero]
        rfl
      rw [excerpt_eq hl (by omega), hnone, List.take_zero, Nat.sub_zero, List.drop_take,
        Nat.sub_self, List.take_zero, List.nil_append]
    rw [hexcerpt]
    exact draws_renderLine hf (by rw [lineAt?, hindex, hl]) language
  · obtain ⟨width, _, hrender⟩ := renderBlock_eq hlength language hf hi hindex context
    let below (j : Nat) : Bytes :=
      if UInt32.ofNat j = (f.block d.span context).caretOffset then
        caretsBelow width (f.snippet d.span).caretsBefore (f.snippet d.span).carets ++ [Byte.lf]
      else []
    refine ⟨width, (f.excerpt i context).zipIdx.map fun e => (e.1, below e.2), ?_, ?_, ?_⟩
    · rw [List.map_map]
      exact List.zipIdx_map_fst 0 _
    · rw [List.forall_mem_map]
      intro e _
      by_cases hcaret : UInt32.ofNat e.2 = (f.block d.span context).caretOffset
      · exact .inr ⟨_, _, _, .inr (if_pos hcaret)⟩
      · exact .inl (if_neg hcaret)
    · rw [hrender, ← Diagnostic.heading_eq_rows, List.flatMap_map]

/-- A line is among those of a block if its position is. -/
theorem mem_excerpt_iff (hlength : f.lines.length < UInt32.size) {j : Nat} {l : Line}
    (hl : f.lines[j]? = some l) (i : Nat) (context : UInt32) :
    l ∈ f.excerpt i context ↔
      i - context.toNat ≤ j ∧ j ≤ (i + context.toNat) % UInt32.size := by
  have hj := (List.getElem?_eq_some_iff.mp hl).1
  have hnumber : l.number = UInt32.ofNat (j + 1) := Newline.number_of_split hl
  constructor
  · intro hmem
    obtain ⟨k, hk⟩ := List.mem_iff_getElem?.mp hmem
    have hsame := number_of_excerpt hk
    rw [excerpt, List.getElem?_take] at hk
    split_ifs at hk with hlast
    rw [List.getElem?_drop] at hk
    have hinside := (List.getElem?_eq_some_iff.mp hk).1
    rw [hnumber, ← UInt32.toNat_inj, UInt32.toNat_ofNat_of_lt' (by omega),
      UInt32.toNat_ofNat_of_lt' (by omega)] at hsame
    omega
  · rintro ⟨hfirst, hlast⟩
    refine List.mem_of_getElem? (i := j - (i - context.toNat)) ?_
    rw [excerpt, List.getElem?_take_of_lt (by omega), List.getElem?_drop,
      Nat.add_sub_cancel' hfirst]
    exact hl

/-- One block's lines are among another's exactly if its first and last positions are, or if it has
no line. -/
theorem excerpt_subset_iff (hlength : f.lines.length < UInt32.size) (hi : i < f.lines.length)
    (context context' : UInt32) :
    let first (context : UInt32) : Nat := i - context.toNat
    let last (context : UInt32) : Nat :=
      min ((i + context.toNat) % UInt32.size) (f.lines.length - 1)
    (∀ l ∈ f.excerpt i context, l ∈ f.excerpt i context') ↔
      last context < first context ∨
        first context' ≤ first context ∧ last context ≤ last context' := by
  intro first last
  have hmem {j : Nat} {l : Line} (hl : f.lines[j]? = some l) (context : UInt32) :
      l ∈ f.excerpt i context ↔ first context ≤ j ∧ j ≤ last context := by
    have hj := (List.getElem?_eq_some_iff.mp hl).1
    rw [mem_excerpt_iff hlength hl, Nat.le_min]
    exact ⟨fun h => ⟨h.1, h.2, Nat.le_sub_one_of_lt hj⟩, fun h => ⟨h.1, h.2.1⟩⟩
  constructor
  · intro h
    rcases Nat.lt_or_ge (last context) (first context) with hempty | hshown
    · exact .inl hempty
    · have hlast : last context < f.lines.length :=
        Nat.lt_of_le_of_lt (Nat.min_le_right _ _) (Nat.sub_one_lt_of_lt hi)
      have hfirst := Nat.lt_of_le_of_lt hshown hlast
      have hends {j : Nat} (hj : j < f.lines.length)
          (hin : first context ≤ j ∧ j ≤ last context) :
          first context' ≤ j ∧ j ≤ last context' :=
        (hmem (List.getElem?_eq_getElem hj) context').mp
          (h _ ((hmem (List.getElem?_eq_getElem hj) context).mpr hin))
      exact .inr ⟨(hends hfirst ⟨Nat.le_refl _, hshown⟩).1,
        (hends hlast ⟨hshown, Nat.le_refl _⟩).2⟩
  · intro h l hl
    obtain ⟨j, hj⟩ := List.mem_iff_getElem?.mp (List.mem_of_mem_drop (List.mem_of_mem_take hl))
    have hin := (hmem hj context).mp hl
    rcases h with hempty | ⟨hfirst, hlast⟩
    · omega
    · exact (hmem hj context').mpr ⟨Nat.le_trans hfirst hin.1, Nat.le_trans hin.2 hlast⟩

/-- Where no word wraps around, a larger context has all the lines of a smaller one. -/
theorem excerpt_subset_of_le (hlength : f.lines.length < UInt32.size) (hi : i < f.lines.length)
    {context context' : UInt32} (hle : context.toNat ≤ context'.toNat)
    (hsum : i + context'.toNat < UInt32.size) :
    ∀ l ∈ f.excerpt i context, l ∈ f.excerpt i context' := by
  refine (excerpt_subset_iff hlength hi context context').mpr (.inr ⟨?_, ?_⟩)
  · exact Nat.sub_le_sub_left hle i
  · have hsum' : i + context.toNat < UInt32.size := by omega
    simp only [Nat.mod_eq_of_lt hsum, Nat.mod_eq_of_lt hsum']
    omega

end SourceFile

namespace Tool
open RunSettings Settings

/-- The tool is started in a mode for sources on this source and under this newline rule, and its
context is the one that the configuration has: neither an option nor the environment has one. -/
structure Configures (h : Host) (o : Options) (content : Bytes) (rule : Newline) (c : Int) :
    Prop where
  mode : o.mode ∈ [Mode.interpret, .jit, .compile, .compileOptimized]
  content : h.disk.openFile o.input = .ok content
  newline : (settings h o).newline = rule
  loaded : o.noConfig = false
  option : o.context = none
  unset : h.env.get? Variable.context = none
  value : (Layers.load h.disk h.env (anchor? o) o.config).effective.get? Key.context =
    some (.integer c)

/-- A run says that it failed, with a diagnostic that shows these lines. -/
def ShowsLines (h : Host) (o : Options) (content : Bytes) (rule : Newline) (e : InvalidStatement)
    (lines : List Line) : Prop :=
  (runInput h o).stderr = preface h o content rule ++
    (shown h o content rule e ++ utf8 "\n" ++
      note "error" (o.mode.name ++ utf8 " failed at line " ++ Decimal.ofWord e.line)) ∧
  Draws (shown h o content rule e) ((Diagnostic.invalidStatement e).heading
    (settings h o).language [sourceFile h o content rule]) lines

variable {h : Host} {o : Options} {content : Bytes} {rule : Newline} {c : Int}

theorem Configures.context_eq (hc : Configures h o content rule c) (hpos : 0 ≤ c) :
    (settings h o).context = UInt32.ofInt c := by
  have hload : (settings h o).context =
      UInt32.ofInt (normalizeContext (overrideInteger h.env Variable.context
        (fetchInteger (Layers.load h.disk h.env (anchor? o) o.config).effective Key.context 2).1).1)
      := by
    rw [settings, load, if_neg (by rw [hc.loaded]; decide)]
    dsimp only
    rw [RunSettings.of, hc.option]
    rfl
  rw [hload, fetchInteger, fetch, hc.value, overrideInteger, hc.unset]
  dsimp only
  rw [normalizeContext, if_neg (by omega)]

/-- The lines that a failing run shows are those of the block around the line of the statement. -/
theorem Configures.showsLines (hc : Configures h o content rule c)
    (hsize : content.length < UInt32.size) {k : Nat} {e : InvalidStatement}
    (he : (Program.ofSource content 0 rule).FirstInvalid k e) :
    ShowsLines h o content rule e
      ((sourceFile h o content rule).excerpt k (settings h o).context) := by
  let f := sourceFile h o content rule
  refine ⟨stderr_firstInvalid hc.mode hc.content hc.newline he, ?_⟩
  obtain ⟨l, hl, _, hfile, hlo⟩ := line_of_firstInvalid he
  have hi : k < f.lines.length := (List.getElem?_eq_some_iff.mp hl).1
  have hindex : SourceFile.lineIndex f.lines e.span.lo = k := by
    rw [hlo]
    exact SourceFile.lineIndex_start (rule.split_starts hsize) hl
  have hf : SourceMap.file [f] e.span.file = f := by
    rw [hfile]
    rfl
  exact SourceFile.draws_render (d := .invalidStatement e)
    (SourceFile.length_lines_lt hsize) hf hi hindex _ _

/-- What a run shows with the smaller of two configured contexts is shown with the larger one too
exactly if it lies inside that one's block: so it is as long as a word can hold the sum of the
larger context and the position of the line. -/
theorem contexts_nested_iff {h' : Host} {o' : Options} {c' : Int}
    (hc : Configures h o content rule c) (hc' : Configures h' o' content rule c') (hpos : 0 ≤ c)
    (hle : c ≤ c') (hsize : content.length < UInt32.size) {k : Nat} {e : InvalidStatement}
    (he : (Program.ofSource content 0 rule).FirstInvalid k e) :
    let lines (context : Int) : List Line :=
      (sourceFile h o content rule).excerpt k (UInt32.ofInt context)
    let first (context : Int) : Nat := k - (UInt32.ofInt context).toNat
    let last (context : Int) : Nat :=
      min ((k + (UInt32.ofInt context).toNat) % UInt32.size) ((rule.split content).length - 1)
    ShowsLines h o content rule e (lines c) ∧ ShowsLines h' o' content rule e (lines c') ∧
      ((∀ l ∈ lines c, l ∈ lines c') ↔
        last c < first c ∨ first c' ≤ first c ∧ last c ≤ last c') ∧
      (k + c' < UInt32.size → ∀ l ∈ lines c, l ∈ lines c') := by
  intro lines first last
  let f := sourceFile h o content rule
  have hlength : f.lines.length < UInt32.size := SourceFile.length_lines_lt hsize
  have hk : k < f.lines.length := by
    obtain ⟨l, hl, _⟩ := line_of_firstInvalid he
    exact (List.getElem?_eq_some_iff.mp hl).1
  refine ⟨?_, ?_, SourceFile.excerpt_subset_iff hlength hk _ _, ?_⟩
  · have hshows := hc.showsLines hsize he
    rw [hc.context_eq hpos] at hshows
    exact hshows
  · have hshows := hc'.showsLines hsize he
    rw [hc'.context_eq (Int.le_trans hpos hle)] at hshows
    exact hshows
  · intro hsum
    have hw := toNat_ofInt_of_lt hpos (by omega)
    have hw' := toNat_ofInt_of_lt (Int.le_trans hpos hle) (by omega)
    exact SourceFile.excerpt_subset_of_le hlength hk (by omega) (by omega)

/-- Contexts with the same last bits, one of them past the numbers of a word. -/
theorem contexts_nested_past_word :
    let toml (n : String) : Bytes := utf8 "[diag]\ncontext = " ++ utf8 n ++ utf8 "\n"
    let content := utf8 "a\nt\n"
    let h : Host := ⟨⟨⟨[([utf8 "a"], .file content), ([utf8 "b"], .file (toml "1")),
      ([utf8 "c"], .file (toml "4294967297"))]⟩, []⟩, [], utf8 "1"⟩
    let o (config : String) : Options :=
      { mode := .interpret, input := utf8 "a", config := some (utf8 config) }
    Configures h (o "b") content .universal 1 ∧
      Configures h (o "c") content .universal 4294967297 ∧ content.length < UInt32.size ∧
      (Program.ofSource content 0 .universal).FirstInvalid 1 ⟨2, ⟨0, 2, 3⟩⟩ ∧
      ∀ l ∈ (sourceFile h (o "b") content .universal).excerpt 1 (UInt32.ofInt 1),
        l ∈ (sourceFile h (o "b") content .universal).excerpt 1 (UInt32.ofInt 4294967297) := by
  intro toml content h o
  have hsmall : Configures h (o "b") content .universal 1 :=
    ⟨by decide, rfl, by decide +kernel, rfl, rfl, rfl, by decide +kernel⟩
  have hlarge : Configures h (o "c") content .universal 4294967297 :=
    ⟨by decide, rfl, by decide +kernel, rfl, rfl, rfl, by decide +kernel⟩
  have hsize : content.length < UInt32.size := by decide
  have hinvalid : (Program.ofSource content 0 .universal).FirstInvalid 1 ⟨2, ⟨0, 2, 3⟩⟩ := by
    exact ⟨⟨.invalid, [], 2, ⟨0, 2, 3⟩⟩, by decide +kernel, rfl, rfl, by decide +kernel⟩
  have hnested := (contexts_nested_iff hsmall hlarge (by decide) (by decide) hsize hinvalid).2.2.1
  exact ⟨hsmall, hlarge, hsize, hinvalid, hnested.mpr (.inr ⟨by decide, by decide +kernel⟩)⟩

/-- The smallest context that no word holds counts as none, and hides a line that the context one
shows. -/
theorem contexts_hide_line_past_word :
    let toml (n : String) : Bytes := utf8 "[diag]\ncontext = " ++ utf8 n ++ utf8 "\n"
    let content := utf8 "a\nt\n"
    let h : Host := ⟨⟨⟨[([utf8 "a"], .file content), ([utf8 "b"], .file (toml "1")),
      ([utf8 "c"], .file (toml "4294967296"))]⟩, []⟩, [], utf8 "1"⟩
    let o (config : String) : Options :=
      { mode := .interpret, input := utf8 "a", config := some (utf8 config) }
    let e : InvalidStatement := ⟨2, ⟨0, 2, 3⟩⟩
    let l : Line := ⟨utf8 "a", 1, 0, false⟩
    Configures h (o "b") content .universal 1 ∧
      Configures h (o "c") content .universal 4294967296 ∧
      (Program.ofSource content 0 .universal).FirstInvalid 1 e ∧
      (∃ lines, ShowsLines h (o "b") content .universal e lines ∧ l ∈ lines) ∧
      ¬ ∃ lines, ShowsLines h (o "c") content .universal e lines ∧ l ∈ lines := by
  intro toml content h o e l
  have hsmall : Configures h (o "b") content .universal 1 :=
    ⟨by decide, rfl, by decide +kernel, rfl, rfl, rfl, by decide +kernel⟩
  have hlarge : Configures h (o "c") content .universal 4294967296 :=
    ⟨by decide, rfl, by decide +kernel, rfl, rfl, rfl, by decide +kernel⟩
  have hinvalid : (Program.ofSource content 0 .universal).FirstInvalid 1 e :=
    ⟨⟨.invalid, [], 2, ⟨0, 2, 3⟩⟩, by decide +kernel, rfl, rfl, by decide +kernel⟩
  refine ⟨hsmall, hlarge, hinvalid, ⟨_, hsmall.showsLines (by decide) hinvalid, ?_⟩, ?_⟩
  · rw [hsmall.context_eq (by decide)]
    decide +kernel
  · rintro ⟨lines, hshows, hl⟩
    exact absurd (hshows.2.row_mem hl) (by decide +kernel)

end Tool
end Linewise
