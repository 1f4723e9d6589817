import Linewise.Proofs.Source.Columns
/-!
Where the carets of a span stand. A snippet is located where the start of its span is. The carets
cover what the span covers of the line: from a boundary between characters on, the columns of a text
add up; inside a character the two widths overlap, and nothing is said of the sum.
-/
namespace Linewise

namespace Bytes

/-- A byte offset of a text at which a character starts, or the end of the text. -/
def Boundary (s : Bytes) (n : Nat) : Prop :=
  ∃ k, n = (((Glyph.read s).take k).map (·.size)).sum

end Bytes

theorem Glyph.read_take_append (s : Bytes) (k : Nat) :
    read s = (read s).take k ++ read (s.drop (((read s).take k).map (·.size)).sum) := by
  induction k generalizing s with
  | zero => simp
  | succ k ih =>
      cases s with
      | nil => rfl
      | cons b rest =>
          have hsize := (first_size_bounds b rest).1
          have hread : read (b :: rest) =
              first b rest :: read (rest.drop ((first b rest).size - 1)) := by
            rw [← readFrom_eq_drop]
            rfl
          have hdrop (n : Nat) : (b :: rest).drop ((first b rest).size + n) =
              (rest.drop ((first b rest).size - 1)).drop n := by
            obtain ⟨m, hm⟩ := Nat.exists_eq_add_of_le' hsize
            rw [hm, Nat.add_sub_cancel, List.drop_drop, Nat.add_right_comm, List.drop_succ_cons]
          rw [hread, List.take_succ_cons, List.map_cons, List.sum_cons, hdrop, List.cons_append,
            ← ih]

namespace Bytes

variable {s : Bytes} {lo hi : Nat}

theorem Boundary.exists_front (h : s.Boundary lo) :
    ∃ front : List Glyph, (∀ g ∈ front, 1 ≤ g.size) ∧ (front.map (·.size)).sum = lo ∧
      Glyph.read s = front ++ Glyph.read (s.drop lo) := by
  obtain ⟨k, rfl⟩ := h
  refine ⟨(Glyph.read s).take k, ?_, rfl, Glyph.read_take_append s k⟩
  intro g hg
  obtain ⟨b, rest, rfl⟩ := Glyph.mem_readFrom (List.mem_of_mem_take hg)
  exact (Glyph.first_size_bounds b rest).1

/-- From a boundary on, the characters are the same whether the text is read from there or from its
start, and so the columns up to a later offset add up. -/
theorem Boundary.width_add (h : s.Boundary lo) (hle : lo ≤ hi) :
    s.width hi = s.width lo + s.columnsBetween lo hi := by
  obtain ⟨front, hsizes, hsum, hread⟩ := h.exists_front
  obtain ⟨n, rfl⟩ := Nat.exists_eq_add_of_le hle
  have hwidth (m : Nat) : s.width (lo + m) = (front.map fun g => Glyph.columns g.code).sum +
      Glyph.columnsBefore m (Glyph.read (s.drop lo)) := by
    rw [width_eq, hread, ← hsum]
    exact Glyph.columnsBefore_append hsizes _ m
  have hzero := hwidth 0
  rw [Nat.add_zero, Glyph.columnsBefore_zero, Nat.add_zero] at hzero
  rw [hwidth n, hzero, columnsBetween, Nat.add_sub_cancel_left]

theorem columnsBetween_le_length (s : Bytes) (lo hi : Nat) : s.columnsBetween lo hi ≤ s.length := by
  calc s.columnsBetween lo hi = width (s.drop lo) (hi - lo) := (width_eq _ _).symm
    _ ≤ (s.drop lo).length := width_le_length _ _
    _ ≤ s.length := by
      rw [List.length_drop]
      exact Nat.sub_le _ _

end Bytes

/-- An offset of the file as one of the line's text, to which it is cut. -/
def Line.textOffset (l : Line) (offset : UInt32) : Nat :=
  min (offset.toNat - l.start.toNat) l.text.length

/-- The snippet shows the line on which the span starts, and its place there is where the start is
located. If a character starts there, the carets end with the columns in front of the span's end, or
behind the one column that they have at least. -/
structure Snippet.Covers (s : Snippet) (f : SourceFile) (span : Span) (l : Line) : Prop where
  text : s.text = l.text
  line : s.line = (f.locate span.lo).line
  column : s.column = (f.locate span.lo).column
  before : s.caretsBefore = s.column - 1
  carets : 1 ≤ s.carets
  ends : l.text.Boundary (l.textOffset span.lo) →
    s.caretsBefore.toNat + s.carets.toNat =
      max (s.caretsBefore.toNat + 1) (l.widthBefore span.hi)

namespace SourceFile

variable {f : SourceFile} {i : Nat} {l : Line}

/-- The end of a span on a line: a span that ends before it starts is empty. -/
theorem toNat_spanEnd (hlength : l.text.length < UInt32.size) (span : Span) :
    (if l.start < span.hi then max (within l span.lo) (within l span.hi)
      else within l span.lo).toNat = max (l.textOffset span.lo) (l.textOffset span.hi) := by
  split_ifs with hlt
  · rw [UInt32.toNat_max, toNat_within hlength, toNat_within hlength]
    rfl
  · have hle := UInt32.le_iff_toNat_le.mp (UInt32.not_lt.mp hlt)
    have hnone : l.textOffset span.hi = 0 := by
      rw [Line.textOffset, Nat.sub_eq_zero_of_le hle, Nat.zero_min]
    rw [toNat_within hlength, hnone, Nat.max_zero]
    rfl

/-- What a snippet holds, with its offsets as numbers. -/
theorem Holds.snippet_eq (hsize : f.content.length < UInt32.size) {span : Span}
    (h : f.Holds i span.lo) (hl : f.lines[i]? = some l) :
    let lo := l.textOffset span.lo
    f.snippet span =
      { text := l.text
        line := l.number
        column := UInt32.ofNat (l.widthBefore span.lo) + 1
        caretsBefore := UInt32.ofNat (l.widthBefore span.lo)
        carets := max 1
          (UInt32.ofNat (l.text.columnsBetween lo (max lo (l.textOffset span.hi)))) } := by
  intro lo
  have hlength := text_length_lt hsize hl
  obtain ⟨m, hm, hline⟩ := h.exists_lineAt? hsize
  have hml : m = l := Option.some.inj (hm.symm.trans hl)
  subst hml
  rw [snippet, hline]
  dsimp only
  rw [columns_within hlength, columns, toNat_spanEnd hlength, toNat_within hlength]
  rfl

/-- There is a caret below whatever a snippet shows. -/
theorem snippet_carets_pos (f : SourceFile) (span : Span) : 1 ≤ (f.snippet span).carets := by
  unfold snippet
  split
  · decide
  · rw [UInt32.le_iff_toNat_le, UInt32.toNat_max]
    exact Nat.le_max_left _ _

theorem Holds.snippet_covers (hsize : f.content.length < UInt32.size) {span : Span}
    (h : f.Holds i span.lo) (hl : f.lines[i]? = some l) : (f.snippet span).Covers f span l := by
  have hlength := text_length_lt hsize hl
  let lo := l.textOffset span.lo
  let hi := max lo (l.textOffset span.hi)
  have hcarets := f.snippet_carets_pos span
  rw [h.snippet_eq hsize hl] at hcarets ⊢
  refine { text := rfl, line := ?_, column := ?_, before := ?_, carets := hcarets, ends := ?_ }
  · rw [h.locate_eq hsize hl]
  · rw [h.locate_eq hsize hl]
  · exact (UInt32.add_sub_cancel _ _).symm
  · intro hboundary
    have hadd : l.text.width hi = l.text.width lo + l.text.columnsBetween lo hi :=
      hboundary.width_add (Nat.le_max_left _ _)
    have hbefore := Nat.lt_of_le_of_lt (l.text.width_le_length lo) hlength
    have hbetween := Nat.lt_of_le_of_lt (l.text.columnsBetween_le_length lo hi) hlength
    have hone : (1 : UInt32).toNat = 1 := rfl
    -- A span that ends at its start or before it has no column; otherwise its end is `hi`.
    have hends : max (l.text.width lo + 1) (l.text.width hi) =
        max (l.text.width lo + 1) (l.widthBefore span.hi) := by
      rcases Nat.le_total (l.textOffset span.hi) lo with hle | hle
      · have hhi : hi = lo := Nat.max_eq_left hle
        have hwidth : l.widthBefore span.hi ≤ l.text.width lo := l.text.width_mono hle
        rw [hhi]
        omega
      · have hhi : hi = l.textOffset span.hi := Nat.max_eq_right hle
        rw [hhi]
        rfl
    have hlo : l.widthBefore span.lo = l.text.width lo := rfl
    dsimp only
    rw [hlo, UInt32.toNat_max, UInt32.toNat_ofNat_of_lt' hbefore,
      UInt32.toNat_ofNat_of_lt' hbetween, hone, ← Nat.add_max_add_left, ← hadd]
    exact hends

/-- A snippet agrees with the location of its span, and its carets cover the span from the start of
a character on. -/
theorem snippet_covers_span (f : SourceFile) (hsize : f.content.length < UInt32.size)
    (hne : f.lines ≠ []) (span : Span) :
    ∃ i l, f.lines[i]? = some l ∧ (∀ j, f.Holds j span.lo ↔ j = i) ∧
      (f.snippet span).Covers f span l := by
  obtain ⟨i, hi⟩ := exists_holds hne span.lo
  obtain ⟨l, hl, _⟩ := hi.exists_lineAt? hsize
  exact ⟨i, l, hl, hi.iff_eq hsize, hi.snippet_covers hsize hl⟩

/-- Behind a character of one column and one of two, on a second line, a span that ends inside the
next character of two columns. -/
theorem snippet_covers_span_into_character :
    let f : SourceFile := ⟨utf8 "a.qs", utf8 "t\r\nb가나", .crlf⟩
    let l : Line := ⟨utf8 "b가나", 2, 3, false⟩
    let span : Span := ⟨0, 7, 8⟩
    f.content.length < UInt32.size ∧ f.lines ≠ [] ∧ f.Holds 1 span.lo ∧
      (f.snippet span).Covers f span l ∧ l.text.Boundary (l.textOffset span.lo) ∧
      (f.snippet span).caretsBefore = 3 ∧ (f.snippet span).carets = 2 ∧
      l.widthBefore span.hi = 5 := by
  intro f l span
  have hsize : f.content.length < UInt32.size := by decide
  have hlines : f.lines = [⟨utf8 "t", 1, 0, false⟩, l] := by decide +kernel
  have hne : f.lines ≠ [] := by rw [hlines]; exact List.cons_ne_nil _ _
  have hholds : f.Holds 1 span.lo := by
    refine ⟨l, by rw [hlines]; rfl, by decide, ?_⟩
    intro m hm
    rw [hlines] at hm
    cases hm
  have hboundary : l.text.Boundary (l.textOffset span.lo) := ⟨2, by decide +kernel⟩
  have hbefore : (f.snippet span).caretsBefore = 3 := by decide +kernel
  have hend : l.widthBefore span.hi = 5 := by decide +kernel
  obtain ⟨i, m, hm, hi, hcovers⟩ := snippet_covers_span f hsize hne span
  obtain rfl := (hi 1).mp hholds
  rw [hlines] at hm
  obtain rfl := Option.some.inj hm
  have hcarets := hcovers.ends hboundary
  rw [hbefore, hend] at hcarets
  have hthree : (3 : UInt32).toNat = 3 := rfl
  refine ⟨hsize, hne, hholds, hcovers, hboundary, hbefore, ?_, hend⟩
  rw [← UInt32.toNat_inj]
  have htwo : (2 : UInt32).toNat = 2 := rfl
  omega

end SourceFile
end Linewise
