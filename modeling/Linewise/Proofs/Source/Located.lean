import Linewise.Proofs.Program.DeadEmits
import Linewise.Proofs.Source.Statements
/-!
Where the diagnostics of a source are shown. The number in a message was counted when the source was
cut, the number beside the excerpt is searched among the starts of the lines. Every diagnostic starts
within the line that it is about, so the search comes to that line.
-/
namespace Linewise

theorem SourceMap.file_add {m : SourceMap} (hm : m.length < UInt32.size) (f : SourceFile) :
    (m.add f).1.file (m.add f).2 = f := by
  have hnumber : (m.add f).2.toNat = m.length := UInt32.toNat_ofNat_of_lt' hm
  have hlast : (m ++ [f])[m.length]? = some f := by
    rw [List.getElem?_append_right (Nat.le_refl _), Nat.sub_self]
    rfl
  rw [file, hnumber, add, List.getD_eq_getElem?_getD, hlast]
  rfl

namespace SourceFile

/-- The location and the snippet of a span have this line number, and the snippet this text. -/
structure Shows (f : SourceFile) (span : Span) (number : Nat) (text : Bytes) : Prop where
  location : (f.locate span.lo).line.toNat = number
  snippet : (f.snippet span).line.toNat = number
  text : (f.snippet span).text = text

theorem columns_start (l : Line) : columns l 0 (within l l.start) = 0 := by
  have hwithin : within l l.start = 0 := if_neg (UInt32.lt_irrefl _)
  rw [hwithin, columns, Bytes.columnsBetween]
  cases Glyph.read (l.text.drop (0 : UInt32).toNat) with
  | nil => rfl
  | cons g rest => rfl

section
variable {f : SourceFile} (hsize : f.content.length < UInt32.size) {k : Nat} {p : Piece}
  (hp : (f.newline.pieces f.content)[k]? = some p) {span : Span}
include hsize hp

theorem lineAt?_of_within (hlo : Piece.offset (f.newline.pieces f.content) k ≤ span.lo.toNat)
    (hhi : span.lo.toNat < Piece.offset (f.newline.pieces f.content) k + p.bytes.length) :
    f.lineAt? span.lo = some (p.toLine f.newline (f.newline.pieces f.content) k) := by
  refine lineAt?_of_between hsize hp hlo fun _ _ => ?_
  rw [Piece.offset_succ hp]
  exact hhi

theorem shows_of_within (hlo : Piece.offset (f.newline.pieces f.content) k ≤ span.lo.toNat)
    (hhi : span.lo.toNat < Piece.offset (f.newline.pieces f.content) k + p.bytes.length) :
    f.Shows span (k + 1) p.text := by
  have hnumber := (f.newline.cut_pieces f.content).toNat_number hp hsize
  have hline := lineAt?_of_within hsize hp hlo hhi
  refine ⟨?_, ?_, ?_⟩
  · rw [locate, hline]
    exact hnumber
  · rw [snippet, hline]
    exact hnumber
  · rw [snippet, hline]
    rfl

theorem column_of_start (hlo : span.lo.toNat = Piece.offset (f.newline.pieces f.content) k) :
    (f.locate span.lo).column = 1 := by
  have hcut := f.newline.cut_pieces f.content
  have hpos := List.length_pos_iff.mpr (hcut.bytes.2 p (List.mem_of_getElem? hp))
  have hline := lineAt?_of_within hsize hp (Nat.le_of_eq hlo.symm) (by omega)
  have hstart : span.lo = (p.toLine f.newline (f.newline.pieces f.content) k).start := by
    rw [← UInt32.toNat_inj, hlo, hcut.toNat_start hp hsize]
  rw [locate, hline]
  dsimp only
  rw [hstart, columns_start]
  rfl

end
end SourceFile

/-- The diagnostic is about the statement at position `k`: its argument is the number of that line,
and it is shown there. Only a line feed may be looked for further inside the line. -/
structure Diagnostic.ShownAt (d : Diagnostic) (m : SourceMap) (source : Bytes) (k : Nat)
    (s : Statement) : Prop where
  args : d.args = [Decimal.ofNat (k + 1)]
  shows : (m.file d.span.file).Shows d.span (k + 1) (s.span.bytes source)
  column : d.finding ∈ [Finding.invalidStatement, .deadTrailingEmit] →
    ((m.file d.span.file).locate d.span.lo).column = 1

section
variable {source : Bytes} {file : UInt32} {rule : Newline}

theorem Program.exists_piece_of_mem {s : Statement} (hsize : source.length < UInt32.size)
    (hs : s ∈ Program.ofSource source file rule) :
    ∃ k p, (rule.pieces source)[k]? = some p ∧ (Program.ofSource source file rule)[k]? = some s ∧
      s.Reads source file (k + 1) (Piece.offset (rule.pieces source) k) p.text := by
  obtain ⟨k, hk⟩ := List.mem_iff_getElem?.mp hs
  have hline := hk
  rw [ofSource, List.getElem?_map, rule.getElem?_split, Option.map_map] at hline
  obtain ⟨p, hp, rfl⟩ := Option.map_eq_some_iff.mp hline
  exact ⟨k, p, hp, hk, Statement.reads_toLine file (rule.cut_pieces source) hsize hp⟩

theorem Diagnostic.pointsAt_of_mem {d : Diagnostic} (hsize : source.length < UInt32.size)
    (hd : d ∈ Diagnostic.ofSource source file rule) :
    ∃ k p i b, (rule.pieces source)[k]? = some p ∧ i < p.text.length ∧
      d.PointsAt source file (k + 1) b (Piece.offset (rule.pieces source) k + i) ∧
      (d.finding ∈ [Finding.invalidStatement, .deadTrailingEmit] → i = 0) := by
  obtain ⟨l, hl, hd⟩ := List.mem_flatMap.mp hd
  obtain ⟨k, p, hp, rfl⟩ := Newline.exists_piece_of_mem_split hl
  have hfound := foundOn_toLine file (rule.cut_pieces source) hsize hp
  rw [ofLine_eq, List.mem_append, Option.mem_toList, Option.mem_toList] at hd
  rcases hd with hd | hd
  · obtain ⟨_, hfinding, hpoints⟩ := hfound.mismatch d hd
    have hlf := (hfound.mismatch_isSome.mp (Option.isSome_of_mem hd)).2
    refine ⟨k, p, _, _, hp, List.idxOf_lt_length_of_mem hlf, hpoints, ?_⟩
    simp [hfinding]
  · obtain ⟨_, _, hpoints⟩ := hfound.invalid d hd
    have hhead := hfound.invalid_isSome.mp (Option.isSome_of_mem hd)
    have hpos : 0 < p.text.length := by
      rw [List.length_pos_iff]
      rintro hnil
      rw [hnil] at hhead
      cases hhead
    exact ⟨k, p, 0, _, hp, hpos, hpoints, fun _ => rfl⟩

variable {m : SourceMap} {name : Bytes}

/-- A diagnostic that starts within a line and carries its number is shown there. -/
theorem Diagnostic.shownAt_of_within (hsize : source.length < UInt32.size)
    (hfile : m.file file = ⟨name, source, rule⟩) {k : Nat} {p : Piece}
    (hp : (rule.pieces source)[k]? = some p) {s : Statement}
    (hs : s.Reads source file (k + 1) (Piece.offset (rule.pieces source) k) p.text)
    {d : Diagnostic} (hargs : d.args = [Decimal.ofNat (k + 1)]) (hspan : d.span.file = file)
    {i : Nat} (hi : i < p.bytes.length)
    (hlo : d.span.lo.toNat = Piece.offset (rule.pieces source) k + i)
    (hcolumn : d.finding ∈ [Finding.invalidStatement, .deadTrailingEmit] → i = 0) :
    d.ShownAt m source k s := by
  let f : SourceFile := ⟨name, source, rule⟩
  have hf : m.file d.span.file = f := by rw [hspan, hfile]
  refine ⟨hargs, ?_, ?_⟩
  · rw [hf, hs.bytes]
    exact SourceFile.shows_of_within (f := f) hsize hp (by rw [hlo]; exact Nat.le_add_right _ _)
      (by rw [hlo]; exact Nat.add_lt_add_left hi _)
  · intro hfinding
    rw [hcolumn hfinding] at hlo
    rw [hf]
    exact SourceFile.column_of_start (f := f) hsize hp hlo

theorem Program.buildOptimized_reports_some (p : Program) (bag : Option Bag) :
    ∃ dead : List Statement, (∀ s ∈ dead, s ∈ p) ∧
      (p.buildOptimized true bag).2 = bag.map (·.report (dead.map .deadEmit)) := by
  rcases p.valid_or_firstInvalid with hv | ⟨k, e, he⟩
  · refine ⟨p.trailingEmits, ?_, buildOptimized_reports hv true bag⟩
    intro s hs
    exact (List.rtakeWhile_suffix _ _).subset (List.mem_of_mem_filter hs)
  · refine ⟨[], by simp, ?_⟩
    rw [buildOptimized_firstInvalid he]
    simp

end

/-- Whatever reading and optimizing a source report is shown on the line whose number it carries,
with the whole text of that line's statement. -/
theorem Diagnostic.reports_shownAt (source : Bytes) (hsize : source.length < UInt32.size / 2)
    (rule : Newline) (name : Bytes) (m : SourceMap) (hm : m.length < UInt32.size) (bag : Bag) :
    let added := m.add ⟨name, source, rule⟩
    let read := Program.read source added.2 rule (some bag)
    ∃ ds, (read.1.buildOptimized true read.2).2 = some (bag.report ds) ∧
      ∀ d ∈ ds, ∃ k s, read.1[k]? = some s ∧ d.ShownAt added.1 source k s := by
  intro added read
  have hword : source.length < UInt32.size := Nat.lt_trans hsize (by decide)
  have hcut := (rule.cut_iff source _).mpr rfl
  have hfile : added.1.file added.2 = ⟨name, source, rule⟩ := SourceMap.file_add hm _
  have hnumber {k : Nat} {p : Piece} (hp : (rule.pieces source)[k]? = some p) : k + 1 < UInt32.size / 2 :=
    Nat.lt_of_le_of_lt (hcut.number_le hp) hsize
  obtain ⟨dead, hdead, hreports⟩ := read.1.buildOptimized_reports_some read.2
  refine ⟨Diagnostic.ofSource source added.2 rule ++ dead.map .deadEmit, ?_, ?_⟩
  · rw [hreports]
    simp [read, Program.read, Bag.report]
  · intro d hd
    rcases List.mem_append.mp hd with hd | hd
    · obtain ⟨k, p, i, b, hp, hi, hpoints, hcolumn⟩ := pointsAt_of_mem hword hd
      have hs := Statement.reads_toLine added.2 hcut hword hp
      have hlength : p.bytes.length = p.text.length + p.terminator.length := List.length_append
      refine ⟨k, _, ?_, shownAt_of_within hword hfile hp hs (hpoints.args (hnumber hp))
        hpoints.file (by omega) hpoints.lo hcolumn⟩
      change (Program.ofSource source added.2 rule)[k]? = _
      rw [Program.ofSource, List.getElem?_map, rule.getElem?_split, hp]
      rfl
    · obtain ⟨s, hs, rfl⟩ := List.mem_map.mp hd
      obtain ⟨k, p, hp, hk, hreads⟩ := Program.exists_piece_of_mem hword (hdead s hs)
      have hpos := List.length_pos_iff.mpr (hcut.bytes.2 p (List.mem_of_getElem? hp))
      have hargs : (deadEmit s).args = [Decimal.ofNat (k + 1)] := by
        have hline : s.line.toNat < UInt32.size / 2 := hreads.line ▸ hnumber hp
        rw [deadEmit, Decimal.ofSignedWord_of_lt hline, hreads.line]
      exact ⟨k, s, hk, shownAt_of_within hword hfile hp hreads hargs hreads.file hpos hreads.lo
        fun _ => rfl⟩

/-- A line feed inside the second line of the second file, in an emit that nothing prints. -/
theorem Diagnostic.reports_shownAt_of_dead_line :
    let source := utf8 "p\r\na\nb\r\n"
    let m : SourceMap := [default]
    let found : List Diagnostic :=
      [⟨.warning, .lineEndingMismatch, ⟨1, 4, 5⟩, [utf8 "2"]⟩,
        ⟨.warning, .deadTrailingEmit, ⟨1, 3, 6⟩, [utf8 "2"]⟩]
    source.length < UInt32.size / 2 ∧ m.length < UInt32.size ∧
      ∀ d ∈ found, ∃ k s, d.ShownAt (m.add ⟨utf8 "b", source, .crlf⟩).1 source k s := by
  intro source m found
  have hsize : source.length < UInt32.size / 2 := by decide
  have hm : m.length < UInt32.size := by decide
  have hfound : ((Program.read source 1 .crlf (some {})).1.buildOptimized true
      (Program.read source 1 .crlf (some {})).2).2 = some ⟨found⟩ := by decide +kernel
  obtain ⟨ds, hreports, hshown⟩ := reports_shownAt source hsize .crlf (utf8 "b") m hm {}
  have hds : found = ds :=
    congrArg Bag.diagnostics (Option.some.inj (hfound.symm.trans hreports))
  refine ⟨hsize, hm, fun d hd => ?_⟩
  obtain ⟨k, s, _, hs⟩ := hshown d (hds ▸ hd)
  exact ⟨k, s, hs⟩

end Linewise
