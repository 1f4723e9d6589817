import Linewise.Proofs.Listing.Faults
import Linewise.Proofs.Listing.Lines
import Linewise.Proofs.Source.Breaks
/-!
What is reported of a listing's text. The reader reports at most one error about each line, in the
order of the lines, and a missing halt at the end of the text; it refuses a text exactly if it has
reported something about it. The missing halt may come upon the report of the last line.
-/
namespace Linewise

namespace LineReading

/-- The word that a line opens with. -/
def word (line : Bytes) : Bytes := (line.dropWhile Byte.isBlank).takeWhile isWordByte

/-- Whether the line ends the listing, even if it goes on where it should not. -/
def halts : LineReading → Bool
  | .instruction op => op = .halt
  | .fault cause => cause.halts
  | .blank | .comment _ => false

theorem halts_ofRest (size : Nat) (op : Op) (rest : Bytes) :
    (ofRest size op rest).halts = decide (op = .halt) := by
  unfold ofRest
  split
  · rfl
  · split_ifs
    · rfl
    · rfl

theorem halts_ofLiteral {op : Bytes → Op} (hop : ∀ text, op text ≠ .halt) (size : Nat)
    (rest : Bytes) : (ofLiteral size op rest).halts = false := by
  unfold ofLiteral
  split
  · rw [halts_ofRest]
    exact decide_eq_false (hop _)
  · rfl

/-- A line ends the listing exactly if it opens with a halt. -/
theorem halts_ofLine (line : Bytes) :
    (ofLine line).halts = true ↔ word line = utf8 "halt" := by
  unfold ofLine word
  split
  · rename_i hblank
    rw [hblank]
    decide
  · rename_i b more hline
    rw [hline]
    split_ifs with hcomment
    · have hword : (b :: more).takeWhile isWordByte = [] :=
        List.takeWhile_cons_of_neg (by rw [hcomment]; decide)
      rw [hword]
      exact iff_of_false Bool.false_ne_true (by decide)
    · generalize (b :: more).takeWhile isWordByte = w
      unfold ofWord
      split_ifs with happend hprintLiteral hprint hhalt
      · rw [halts_ofLiteral (by simp), happend]
        decide
      · rw [halts_ofLiteral (by simp), hprintLiteral]
        decide
      · rw [halts_ofRest, hprint]
        decide
      · rw [halts_ofRest, hhalt]
        decide
      · exact iff_of_false Bool.false_ne_true hhalt

theorem ofRest_ne_unknownOpcode (size : Nat) (op : Op) (rest : Bytes) (start : Nat) (w : Bytes) :
    ofRest size op rest ≠ .fault (.unknownOpcode start w) := by
  unfold ofRest
  split
  · simp
  · split_ifs
    · simp
    · simp

theorem ofLiteral_ne_unknownOpcode (size : Nat) (op : Bytes → Op) (rest : Bytes) (start : Nat)
    (w : Bytes) : ofLiteral size op rest ≠ .fault (.unknownOpcode start w) := by
  unfold ofLiteral
  split
  · exact ofRest_ne_unknownOpcode _ _ _ _ _
  · simp

/-- An unknown opcode is the word that the line opens with, blanks aside. -/
theorem unknownOpcode_of_ofLine {line w : Bytes} {start : Nat}
    (h : ofLine line = .fault (.unknownOpcode start w)) :
    ∃ rest : Bytes, rest ≠ [] ∧ start + rest.length = line.length ∧
      w = rest.takeWhile isWordByte := by
  unfold ofLine at h
  split at h
  · cases h
  · rename_i b more hline
    split_ifs at h
    unfold ofWord at h
    split_ifs at h
    · exact absurd h (ofLiteral_ne_unknownOpcode _ _ _ _ _)
    · exact absurd h (ofLiteral_ne_unknownOpcode _ _ _ _ _)
    · exact absurd h (ofRest_ne_unknownOpcode _ _ _ _ _)
    · exact absurd h (ofRest_ne_unknownOpcode _ _ _ _ _)
    · cases h
      refine ⟨b :: more, List.cons_ne_nil _ _, Nat.sub_add_cancel ?_, rfl⟩
      rw [← hline]
      exact (List.dropWhile_suffix _).length_le

end LineReading

namespace Diagnostic

/-- A fault of a word or of a literal is told with one argument, and no other error has any. -/
def ArgsFit (d : Diagnostic) : Prop :=
  match d.finding with
  | .unknownOpcode | .malformedLiteral => ∃ arg, arg ≠ [] ∧ d.args = [arg]
  | _ => d.args = []

/-- The diagnostic is an error about a stretch of the line. -/
structure IsAbout (d : Diagnostic) (file : UInt32) (l : Line) : Prop where
  severity : d.severity = .error
  finding : d.finding ∈ [Finding.unknownOpcode, .malformedLiteral, .trailingAfterHalt]
  file : d.span.file = file
  place : ∃ i j, i ≤ j ∧ j ≤ l.text.length ∧ d.span.lo = l.start + UInt32.ofNat i ∧
    d.span.hi = l.start + UInt32.ofNat j
  args : d.ArgsFit

variable {file : UInt32} {l : Line}

theorem isAbout_ofFault (file : UInt32) {cause : LineFault}
    (h : LineReading.ofLine l.text = .fault cause) : (ofFault file l cause).IsAbout file l := by
  have hstart : cause.start ≤ l.text.length :=
    (LineReading.pointsInto_of_fault h).elim Nat.le_of_lt fun hend => Nat.le_of_eq hend.1
  cases cause with
  | unknownOpcode start w =>
      obtain ⟨rest, hrest, hlength, rfl⟩ := LineReading.unknownOpcode_of_ofLine h
      have hpos : 0 < rest.length := List.length_pos_iff.mpr hrest
      have hword : (rest.takeWhile LineReading.isWordByte).length ≤ rest.length :=
        (List.takeWhile_prefix _).length_le
      have hstop (n : Nat) : l.start + UInt32.ofNat start + UInt32.ofNat n =
          l.start + UInt32.ofNat (start + n) := by
        rw [UInt32.ofNat_add, UInt32.add_assoc]
      rw [ofFault]
      split_ifs with hempty
      · exact ⟨rfl, by simp [inListing], rfl, ⟨start, start + 1, by omega, by omega, rfl, hstop 1⟩,
          ⟨_, by simp, rfl⟩⟩
      · exact ⟨rfl, by simp [inListing], rfl, ⟨start, _, by omega, by omega, rfl, hstop _⟩,
          ⟨_, by simpa using hempty, rfl⟩⟩
  | malformedLiteral start cause =>
      have hreason : cause.reason ≠ [] := by
        cases cause with
        | unknownEscape b => simp [Literal.Fault.reason]
        | missingQuote | truncatedHex | invalidHex | unterminated => decide
      exact ⟨rfl, by simp [ofFault, inListing], rfl,
        ⟨start, l.text.length, hstart, Nat.le_refl _, rfl, rfl⟩, ⟨_, hreason, rfl⟩⟩
  | trailingText start op =>
      exact ⟨rfl, by simp [ofFault, inListing], rfl,
        ⟨start, l.text.length, hstart, Nat.le_refl _, rfl, rfl⟩, ⟨_, by decide, rfl⟩⟩

theorem isAbout_trailingAfterHalt (file : UInt32) (l : Line) :
    (trailingAfterHalt file l).IsAbout file l :=
  ⟨rfl, by simp [trailingAfterHalt, inListing], rfl,
    ⟨0, l.text.length, Nat.zero_le _, Nat.le_refl _, (UInt32.add_zero _).symm, rfl⟩, rfl⟩

theorem Reported.isAbout {d : Diagnostic} (h : Reported file l d) : d.IsAbout file l := by
  cases h with
  | fault h => exact isAbout_ofFault file h
  | afterHalt _ => exact isAbout_trailingAfterHalt file l

end Diagnostic

namespace Reader

variable (file : UInt32) (r : Reader) (l : Line)

theorem halted_step :
    (r.step file l).halted = (r.halted || (LineReading.ofLine l.text).halts) := by
  have hafter (h : r.halted = true) : (r.afterHalt file l).halted = true := by
    unfold afterHalt
    split_ifs
    · exact h
    · exact h
  unfold step
  split
  · rename_i hline
    simp [hline, LineReading.halts]
  · rename_i hline
    rw [hline, comment]
    split_ifs
    · simp [LineReading.halts]
    · simp [LineReading.halts]
  · rename_i hline
    rw [hline]
    split_ifs with h
    · rw [hafter h, h]
      rfl
    · simp [h, instruction, LineReading.halts]
  · rename_i hline
    rw [hline]
    split_ifs with h
    · rw [hafter h, h]
      rfl
    · simp [h, fault, LineReading.halts]

variable {file r l}

/-- The reader has gone over these lines. What it found is about some of them, in their order, and
it has refused the text exactly if there is something. -/
structure Traces (file : UInt32) (r : Reader) (ls : List Line) : Prop where
  found : ∃ about : List (Line × Diagnostic), (about.map (·.1)).Sublist ls ∧
    (∀ q ∈ about, q.2.IsAbout file q.1) ∧ r.found.reverse = about.map (·.2)
  ok : r.ok = true ↔ r.found = []
  trailing : r.found.countP (·.finding = .trailingAfterHalt) = if r.trailing then 1 else 0
  halted : r.halted = true ↔ ∃ l ∈ ls, LineReading.word l.text = utf8 "halt"

theorem traces_nil : Traces file {} [] :=
  ⟨⟨[], .slnil, by simp, rfl⟩, by simp, rfl, by simp⟩

theorem Traces.step {ls : List Line} (h : r.Traces file ls) (l : Line) :
    (r.step file l).Traces file (ls ++ [l]) := by
  obtain ⟨about, hlines, habout, hfound⟩ := h.found
  have hhalted : (r.step file l).halted = true ↔
      ∃ m ∈ ls ++ [l], LineReading.word m.text = utf8 "halt" := by
    rw [halted_step, Bool.or_eq_true, h.halted, LineReading.halts_ofLine]
    simp [or_and_right, exists_or]
  cases r.step_moves file l with
  | quiet ok found trailing =>
      exact ⟨⟨about, hlines.trans (List.sublist_append_left _ _), habout, by rw [found, hfound]⟩,
        by rw [ok, found, h.ok], by rw [found, trailing, h.trailing], hhalted⟩
  | refused d reported ok found trailing once =>
      refine ⟨⟨about ++ [(l, d)], ?_, ?_, ?_⟩, ?_, ?_, hhalted⟩
      · rw [List.map_append]
        exact hlines.append (.refl _)
      · rw [List.forall_mem_append]
        exact ⟨habout, by simpa using reported.isAbout⟩
      · rw [found, List.reverse_cons, hfound, List.map_append]
        rfl
      · simp [ok, found]
      · rw [found, List.countP_cons, h.trailing, trailing]
        by_cases hfinding : d.finding = .trailingAfterHalt
        · simp [hfinding, once hfinding]
        · simp [hfinding]
  | again before ok found trailing =>
      -- What is refused without a report comes after the report of the first such line.
      have hne : r.found ≠ [] := by
        rintro hnil
        have hcount := h.trailing
        rw [hnil, before] at hcount
        cases hcount
      exact ⟨⟨about, hlines.trans (List.sublist_append_left _ _), habout, by rw [found, hfound]⟩,
        by simp [ok, found, hne], by rw [found, trailing, h.trailing], hhalted⟩

theorem Traces.foldl {before : List Line} (h : r.Traces file before) (ls : List Line) :
    (ls.foldl (Reader.step file) r).Traces file (before ++ ls) := by
  induction ls generalizing r before with
  | nil => rwa [List.append_nil]
  | cons l ls ih =>
      rw [List.append_cons]
      exact ih (h.step l)

end Reader

/-- The number of line feeds before an offset of a text. -/
def lineOf (text : Bytes) (offset : UInt32) : Nat := (text.take offset.toNat).count Byte.lf

namespace Diagnostic

/-- The diagnostic is an error about a stretch of one line of the text. -/
structure Placed (d : Diagnostic) (file : UInt32) (text : Bytes) : Prop where
  severity : d.severity = .error
  finding : d.finding ∈
    [Finding.unknownOpcode, .malformedLiteral, .trailingAfterHalt, .missingHalt]
  file : d.span.file = file
  ordered : d.span.lo ≤ d.span.hi
  inside : d.span.hi.toNat ≤ text.length
  oneLine : lineOf text d.span.hi = lineOf text d.span.lo
  args : d.ArgsFit

theorem IsAbout.placed {d : Diagnostic} {file : UInt32} {l : Line} (h : d.IsAbout file l)
    {text : Bytes} (hsize : text.length < UInt32.size) (hl : l ∈ Newline.lf.split text) :
    d.Placed file text ∧ lineOf text d.span.lo + 1 = l.number.toNat := by
  have hcut := Newline.lf.cut_pieces text
  obtain ⟨k, p, hp, rfl⟩ := Newline.exists_piece_of_mem_split hl
  obtain ⟨i, j, hij, hj, hlo, hhi⟩ := h.place
  have htext := hcut.text_end_le hp
  have hstart := hcut.toNat_start hp hsize
  have hj' : j ≤ p.text.length := hj
  have hoffset {n : Nat} (hn : n ≤ p.text.length) :
      ((p.toLine .lf (Newline.lf.pieces text) k).start + UInt32.ofNat n).toNat =
        Piece.offset (Newline.lf.pieces text) k + n := by
    rw [toNat_add_ofNat (by omega), hstart]
  have hline {n : Nat} (hn : n ≤ p.text.length) :
      lineOf text ((p.toLine .lf (Newline.lf.pieces text) k).start + UInt32.ofNat n) = k := by
    rw [lineOf, hoffset hn]
    exact hcut.count_lf hp hn
  refine ⟨⟨h.severity, ?_, h.file, ?_, ?_, ?_, h.args⟩, ?_⟩
  · have hfinding := h.finding
    simp only [List.mem_cons, List.not_mem_nil, or_false] at hfinding ⊢
    tauto
  · rw [hlo, hhi, UInt32.le_iff_toNat_le, hoffset (by omega), hoffset hj']
    omega
  · rw [hhi, hoffset hj']
    omega
  · rw [hlo, hhi, hline hj', hline (by omega)]
  · rw [hlo, hline (by omega), hcut.toNat_number hp hsize]

/-- A text that ends with a line feed has one more line behind those that something is about. -/
theorem IsAbout.line_lt {d : Diagnostic} {file : UInt32} {l : Line} (h : d.IsAbout file l)
    {text : Bytes} (hsize : text.length < UInt32.size) (hl : l ∈ Newline.lf.split text)
    (hend : text.getLast? = some Byte.lf) : lineOf text d.span.lo < text.count Byte.lf := by
  have hnumber := (h.placed hsize hl).2
  have hcut := Newline.lf.cut_pieces text
  obtain ⟨k, p, hp, rfl⟩ := Newline.exists_piece_of_mem_split hl
  rw [hcut.toNat_number hp hsize] at hnumber
  let stop := Piece.offset (Newline.lf.pieces text) k + p.text.length
  have hstop : stop ≤ text.length := hcut.text_end_le hp
  have hbefore : (text.take stop).count Byte.lf = k := hcut.count_lf hp (Nat.le_refl _)
  have hbehind : Byte.lf ∈ text.drop stop := by
    by_cases hlt : stop < text.length
    · refine List.mem_of_getLast? ?_
      rw [List.getLast?_drop, if_neg (Nat.not_le.mpr hlt)]
      exact hend
    · -- Then the line ends the text, with a byte that is no line feed.
      have hbytes := hcut.offset_add_le hp
      have hpos := List.length_pos_iff.mpr (hcut.bytes.2 p (List.mem_of_getElem? hp))
      rw [Piece.bytes, List.length_append] at hbytes hpos
      have hlast : p.text.getLast? = some Byte.lf := by
        rw [List.getLast?_eq_getElem?] at hend ⊢
        rw [← hcut.getElem?_offset hp (by omega), ← hend]
        congr 1
        omega
      exact absurd (List.mem_of_getLast? hlast) (hcut.free p (List.mem_of_getElem? hp))
  have hcount : text.count Byte.lf = k + (text.drop stop).count Byte.lf := by
    rw [← hbefore, ← List.count_append, List.take_append_drop]
  have hpos := List.count_pos_iff.mpr hbehind
  omega

end Diagnostic

namespace Listing

theorem split_numbers {text : Bytes} (hsize : text.length < UInt32.size) :
    (Newline.lf.split text).Pairwise fun l m => l.number.toNat < m.number.toNat := by
  have hnumber {k : Nat} {l : Line} (hk : (Newline.lf.split text)[k]? = some l) :
      l.number.toNat = k + 1 := by
    obtain ⟨p, hp, rfl⟩ := Newline.exists_piece_of_split hk
    exact (Newline.lf.cut_pieces text).toNat_number hp hsize
  rw [List.pairwise_iff_getElem]
  intro i j hi hj hij
  rw [hnumber (List.getElem?_eq_getElem hi), hnumber (List.getElem?_eq_getElem hj)]
  exact Nat.succ_lt_succ hij

end Listing

namespace Reader

variable {file : UInt32} {r : Reader} {text : Bytes}

/-- What the reader found on the lines of a text, with the line of each error. -/
theorem Traces.lines (h : r.Traces file (Newline.lf.split text))
    (hsize : text.length < UInt32.size) :
    (∀ d ∈ r.found.reverse, d.Placed file text ∧ d.finding ≠ .missingHalt ∧
      (text.getLast? = some Byte.lf → lineOf text d.span.lo < text.count Byte.lf)) ∧
    r.found.reverse.Pairwise fun d d' => lineOf text d.span.lo < lineOf text d'.span.lo := by
  obtain ⟨about, hlines, habout, hfound⟩ := h.found
  have hmem : ∀ q ∈ about, q.1 ∈ Newline.lf.split text := fun q hq =>
    hlines.subset (List.mem_map_of_mem hq)
  rw [hfound]
  constructor
  · rw [List.forall_mem_map]
    intro q hq
    have hd := habout q hq
    refine ⟨(hd.placed hsize (hmem q hq)).1, ?_, hd.line_lt hsize (hmem q hq)⟩
    intro hfinding
    have hother := hd.finding
    rw [hfinding] at hother
    exact absurd hother (by decide)
  · have hnumbers := (Listing.split_numbers hsize).sublist hlines
    rw [List.pairwise_map] at hnumbers ⊢
    refine hnumbers.imp_of_mem ?_
    intro q q' hq hq' hlt
    have hline := ((habout q hq).placed hsize (hmem q hq)).2
    have hline' := ((habout q' hq').placed hsize (hmem q' hq')).2
    omega

theorem Traces.ok_finish (h : r.Traces file (Newline.lf.split text)) :
    (r.finish file text).ok = true ↔ (r.finish file text).found = [] := by
  rw [finish]
  split_ifs
  · exact h.ok
  · exact iff_of_false Bool.false_ne_true (List.cons_ne_nil _ _)

end Reader

end Linewise
