import Linewise.Proofs.Positions
import Linewise.Proofs.Source.Starts
/-!
The lines around a span. The block of a span is a stretch of the file's lines that reaches as far as
the context on both sides of the span's own line. Its last position is computed with words: where
that wraps around, it lies before the span's own line, and the block loses it.
-/
namespace Linewise

/-- A difference of words that is taken only where there is one. -/
theorem toNat_sub_or_zero (v w : UInt32) :
    (if w < v then v - w else 0).toNat = v.toNat - w.toNat := by
  by_cases h : w < v
  · rw [if_pos h, UInt32.toNat_sub_of_le _ _ (UInt32.le_of_lt h)]
  · have hle := UInt32.le_iff_toNat_le.mp (UInt32.not_lt.mp h)
    rw [if_neg h, Nat.sub_eq_zero_of_le hle]
    rfl

namespace SourceFile

/-- The offset belongs to line `i`: it is the last line that starts no later than the offset. -/
def Holds (f : SourceFile) (i : Nat) (offset : UInt32) : Prop :=
  ∃ l, f.lines[i]? = some l ∧ l.start ≤ offset ∧ ∀ m, f.lines[i + 1]? = some m → offset < m.start

/-- The lines from one position to another, both included. -/
def between (f : SourceFile) (first last : Int) : List Line :=
  (f.lines.zipIdx.filter fun e => first ≤ e.2 ∧ e.2 ≤ last).map (·.1)

/-- The lines of a file up to `context` positions away from line `i`. -/
def around (f : SourceFile) (i context : Nat) : List Line :=
  f.between (max 0 (i - context)) (min (f.lines.length - 1) (i + context))

end SourceFile

/-- The block shows the lines around line `i` of the file, and its carets stand below the line that
the snippet of the span shows. -/
structure Block.Surrounds (b : Block) (f : SourceFile) (span : Span) (i context : Nat) : Prop where
  lines : b.lines = (f.around i context).map (·.text)
  firstLine : (f.around i context).head?.map (·.number) = some b.firstLine
  caretOffset : b.caretOffset.toNat < b.lines.length
  caretLine : b.lines[b.caretOffset.toNat]? = some (f.snippet span).text

namespace SourceFile

theorem exists_last_start_le {l : Line} (rest : List Line) {offset : UInt32}
    (hl : l.start ≤ offset) :
    ∃ i m, (l :: rest)[i]? = some m ∧ m.start ≤ offset ∧
      ∀ n, (l :: rest)[i + 1]? = some n → offset < n.start := by
  induction rest generalizing l with
  | nil => exact ⟨0, l, rfl, hl, fun n hn => by cases hn⟩
  | cons m rest ih =>
      by_cases hm : m.start ≤ offset
      · obtain ⟨i, n, hi, hn, hnext⟩ := ih hm
        exact ⟨i + 1, n, hi, hn, hnext⟩
      · refine ⟨0, l, rfl, hl, fun n hn => ?_⟩
        obtain rfl := Option.some.inj hn
        exact UInt32.not_le.mp hm

variable {f : SourceFile} {i : Nat} {offset : UInt32}

theorem exists_holds (hne : f.lines ≠ []) (offset : UInt32) : ∃ i, f.Holds i offset := by
  obtain ⟨l, rest, hlines⟩ := List.exists_cons_of_ne_nil hne
  have hfirst : l.start = 0 := by
    have hl : f.lines[0]? = some l := by rw [hlines]; rfl
    obtain ⟨p, _, rfl⟩ := Newline.exists_piece_of_split hl
    rfl
  have hle : l.start ≤ offset := by
    rw [hfirst]
    exact UInt32.zero_le
  obtain ⟨i, m, hi, hm, hnext⟩ := exists_last_start_le rest hle
  rw [← hlines] at hi hnext
  exact ⟨i, m, hi, hm, hnext⟩

theorem Holds.lineIndex_eq (hsize : f.content.length < UInt32.size) (h : f.Holds i offset) :
    lineIndex f.lines offset = i := by
  obtain ⟨l, hl, hlo, hnext⟩ := h
  exact lineIndex_of_between (f.newline.split_starts hsize) hl hlo hnext

/-- An offset belongs to one line only. -/
theorem Holds.iff_eq (hsize : f.content.length < UInt32.size) (h : f.Holds i offset) (j : Nat) :
    f.Holds j offset ↔ j = i := by
  constructor
  · intro hj
    rw [← h.lineIndex_eq hsize, hj.lineIndex_eq hsize]
  · rintro rfl
    exact h

theorem length_lines_lt (hsize : f.content.length < UInt32.size) :
    f.lines.length < UInt32.size := by
  have hcut := f.newline.cut_pieces f.content
  have hlength : f.lines.length = (f.newline.pieces f.content).length :=
    f.newline.length_enumerate 0 0 _
  cases hlast : f.lines.length with
  | zero => decide
  | succ n =>
      have hn : n < (f.newline.pieces f.content).length := by omega
      have hnumber := hcut.number_le (List.getElem?_eq_getElem hn)
      omega

theorem Holds.lt_length (h : f.Holds i offset) : i < f.lines.length := by
  obtain ⟨l, hl, _⟩ := h
  exact (List.getElem?_eq_some_iff.mp hl).1

theorem Holds.exists_lineAt? (hsize : f.content.length < UInt32.size) (h : f.Holds i offset) :
    ∃ l, f.lines[i]? = some l ∧ f.lineAt? offset = some l := by
  have hindex := h.lineIndex_eq hsize
  obtain ⟨l, hl, _⟩ := h
  exact ⟨l, hl, by rw [lineAt?, hindex, hl]⟩

theorem Holds.snippet_text (hsize : f.content.length < UInt32.size) {span : Span}
    (h : f.Holds i span.lo) : f.lines[i]?.map (·.text) = some (f.snippet span).text := by
  obtain ⟨l, hl, hline⟩ := h.exists_lineAt? hsize
  rw [hl, snippet, hline]
  rfl

/-- The block of a span whose line is known by its position, with all positions as numbers. -/
theorem block_eq (hlength : f.lines.length < UInt32.size) {span : Span} (hi : i < f.lines.length)
    (hindex : lineIndex f.lines span.lo = i) (context : UInt32) :
    let first := i - context.toNat
    let last := min ((i + context.toNat) % UInt32.size) (f.lines.length - 1)
    let b := f.block span context
    b.lines = ((f.lines.drop first).take (last + 1 - first)).map (·.text) ∧
      b.firstLine = (f.lines[first]?.map (·.number)).getD 1 ∧ b.caretOffset.toNat = i - first := by
  intro first last b
  let index := UInt32.ofNat i
  let start := if context < index then index - context else 0
  have hword : index.toNat = i := UInt32.toNat_ofNat_of_lt' (by omega)
  have hstart : start.toNat = first := (toNat_sub_or_zero index context).trans (by rw [hword])
  have hlast : (min (index + context) (UInt32.ofNat (f.lines.length - 1))).toNat = last := by
    rw [UInt32.toNat_min, UInt32.toNat_add, hword, UInt32.toNat_ofNat_of_lt' (by omega)]
  have hcaret : (index - start).toNat = i - first := by
    have hle : start ≤ index := by
      rw [UInt32.le_iff_toNat_le, hstart, hword]
      exact Nat.sub_le _ _
    rw [UInt32.toNat_sub_of_le _ _ hle, hword, hstart]
  have hline : f.lineAt? span.lo = some f.lines[i] := by
    rw [lineAt?, hindex]
    exact List.getElem?_eq_getElem hi
  have hb : b = f.block span context := rfl
  rw [block, hline] at hb
  dsimp only at hb
  rw [hindex] at hb
  rw [hb, ← hstart, ← hlast]
  exact ⟨rfl, rfl, hstart ▸ hcaret⟩

theorem around_eq (hi : i < f.lines.length) (context : Nat) :
    f.around i context = (f.lines.drop (i - context)).take
      (min (f.lines.length - 1) (i + context) + 1 - (i - context)) := by
  have hfirst : max 0 ((i : Int) - context) = ((i - context : Nat) : Int) := by omega
  have hlast : min ((f.lines.length : Int) - 1) (i + context) =
      ((min (f.lines.length - 1) (i + context) : Nat) : Int) := by omega
  have hbetween := filter_zipIdx_between f.lines 0 (i - context)
    (min (f.lines.length - 1) (i + context))
  rw [around, between, hfirst, hlast]
  simp only [Int.ofNat_le]
  simpa using hbetween

/-- Where no word wraps around, the block is the one of the lines around the span. -/
theorem Holds.surrounds (hsize : f.content.length < UInt32.size) {span : Span}
    (h : f.Holds i span.lo) {context : UInt32} (hsum : i + context.toNat < UInt32.size) :
    (f.block span context).Surrounds f span i context.toNat := by
  have hi := h.lt_length
  obtain ⟨hlines, hfirst, hcaret⟩ :=
    block_eq (length_lines_lt hsize) hi (h.lineIndex_eq hsize) context
  rw [Nat.mod_eq_of_lt hsum, Nat.min_comm] at hlines
  refine { lines := ?_, firstLine := ?_, caretOffset := ?_, caretLine := ?_ }
  · rw [hlines, around_eq hi]
  · have hcount : min (f.lines.length - 1) (i + context.toNat) + 1 - (i - context.toNat) ≠ 0 := by
      omega
    have hget := List.getElem?_eq_getElem (Nat.lt_of_le_of_lt (Nat.sub_le i context.toNat) hi)
    rw [around_eq hi, List.head?_take, if_neg hcount, List.head?_drop, hfirst, hget]
    rfl
  · rw [hcaret, hlines, List.length_map, List.length_take, List.length_drop]
    omega
  · rw [hcaret, hlines, List.getElem?_map, List.getElem?_take_of_lt (by omega), List.getElem?_drop,
      Nat.add_sub_cancel' (Nat.sub_le _ _)]
    exact h.snippet_text hsize

/-- Where the sum wraps around, the block ends before the line of the span. -/
theorem Holds.length_block_le (hsize : f.content.length < UInt32.size) {span : Span}
    (h : f.Holds i span.lo) {context : UInt32} (hsum : UInt32.size ≤ i + context.toNat) :
    (f.block span context).lines.length ≤ (f.block span context).caretOffset.toNat := by
  have hi := Nat.lt_trans h.lt_length (length_lines_lt hsize)
  have hcontext : context.toNat < UInt32.size := context.toNat_lt
  have hbefore : (i + context.toNat) % UInt32.size < i := by
    rw [Nat.mod_eq_sub_mod hsum, Nat.mod_eq_of_lt (by omega)]
    omega
  obtain ⟨hlines, _, hcaret⟩ :=
    block_eq (length_lines_lt hsize) h.lt_length (h.lineIndex_eq hsize) context
  rw [hcaret, hlines, List.length_map, List.length_take, List.length_drop]
  generalize (i + context.toNat) % UInt32.size = last at hbefore
  omega

/-- The block of a span is that of the lines around its own line, and has that line at its carets,
exactly if the sum of the line's position and the context is within a word. -/
theorem block_surrounds_iff (f : SourceFile) (hsize : f.content.length < UInt32.size)
    (hne : f.lines ≠ []) (span : Span) (context : UInt32) :
    ∃ i, (∀ j, f.Holds j span.lo ↔ j = i) ∧
      ((f.block span context).Surrounds f span i context.toNat ↔
        i + context.toNat < UInt32.size) ∧
      ((f.block span context).caretOffset.toNat < (f.block span context).lines.length ↔
        i + context.toNat < UInt32.size) := by
  obtain ⟨i, hi⟩ := exists_holds hne span.lo
  have hshown : (f.block span context).caretOffset.toNat < (f.block span context).lines.length →
      i + context.toNat < UInt32.size := by
    intro hlt
    by_contra hsum
    exact Nat.not_le.mpr hlt (hi.length_block_le hsize (Nat.not_lt.mp hsum))
  refine ⟨i, hi.iff_eq hsize, ?_, ?_⟩
  · exact ⟨fun h => hshown h.caretOffset, hi.surrounds hsize⟩
  · exact ⟨hshown, fun hsum => (hi.surrounds hsize hsum).caretOffset⟩

/-- The second of three lines with the widest context that shows it, which is more than they need. -/
theorem block_surrounds_at_widest_context :
    let f : SourceFile := ⟨utf8 "a.qs", utf8 "a\nb\nc\n", .lf⟩
    let span : Span := ⟨0, 2, 3⟩
    let context : UInt32 := 4294967294
    f.content.length < UInt32.size ∧ f.lines ≠ [] ∧ f.Holds 1 span.lo ∧
      1 + context.toNat < UInt32.size ∧ (f.block span context).Surrounds f span 1 context.toNat ∧
      (f.block span context).lines = [utf8 "a", utf8 "b", utf8 "c"] := by
  intro f span context
  have hsize : f.content.length < UInt32.size := by decide
  have hlines : f.lines = [⟨utf8 "a", 1, 0, false⟩, ⟨utf8 "b", 2, 2, false⟩,
      ⟨utf8 "c", 3, 4, false⟩] := by decide +kernel
  have hne : f.lines ≠ [] := by rw [hlines]; exact List.cons_ne_nil _ _
  have hholds : f.Holds 1 span.lo := by
    refine ⟨⟨utf8 "b", 2, 2, false⟩, by rw [hlines]; rfl, by decide, ?_⟩
    intro m hm
    rw [hlines] at hm
    obtain rfl := Option.some.inj hm
    decide
  have hsum : 1 + context.toNat < UInt32.size := by decide
  have hshown : (f.block span context).lines = [utf8 "a", utf8 "b", utf8 "c"] := by decide +kernel
  obtain ⟨i, hi, hsurrounds, _⟩ := block_surrounds_iff f hsize hne span context
  obtain rfl := (hi 1).mp hholds
  exact ⟨hsize, hne, hholds, hsum, hsurrounds.mpr hsum, hshown⟩

/-- With the largest context the block of a second line holds the first line only, and its carets
stand below a line that it does not have. -/
theorem block_loses_line_at_largest_context :
    let f : SourceFile := ⟨utf8 "a.qs", utf8 "a\nb\n", .lf⟩
    let span : Span := ⟨0, 2, 3⟩
    let b := f.block span 4294967295
    f.content.length < UInt32.size ∧ f.lines.map (·.text) = [utf8 "a", utf8 "b"] ∧
      (f.lineAt? span.lo).map (·.number) = some 2 ∧ b.lines = [utf8 "a"] ∧ b.caretOffset = 1 ∧
      ¬ b.Surrounds f span 1 4294967295 := by
  intro f span b
  have hlines : b.lines = [utf8 "a"] := by decide +kernel
  have hcaret : b.caretOffset = 1 := by decide +kernel
  refine ⟨by decide, by decide +kernel, by decide +kernel, hlines, hcaret, ?_⟩
  intro h
  have hlt := h.caretOffset
  rw [hlines, hcaret] at hlt
  exact absurd hlt (by decide)

end SourceFile
end Linewise
