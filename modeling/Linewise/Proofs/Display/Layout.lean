import Linewise.Diagnostic.Render
import Linewise.Proofs.Decimal
import Linewise.Proofs.Listing.Lines
import Linewise.Proofs.Source.Carets
/-!
The layout of rendered diagnostics. Below three rows of heading each line that is shown has a row of
its own, with its number in front, and the row of the span's line has one with carets below it. The
lines are copied as they are, so the layout is what it looks like as long as no line that is shown
has a line feed in it.
-/
namespace Linewise

/-- The row of a line: its number, ended at column `width` of the row, a bar and the text. -/
def numberedRow (width : Nat) (l : Line) : Bytes :=
  Bytes.fill (width - (Decimal.ofWord l.number).length) Byte.space ++ Decimal.ofWord l.number ++
    utf8 " | " ++ l.text

/-- A row of carets, with its bar below those of the numbered rows. -/
def caretsBelow (width : Nat) (before carets : UInt32) : Bytes :=
  Bytes.fill width Byte.space ++ utf8 " | " ++ Diagnostic.caretRow before carets

/-- The rows above the lines: what was found, where it is, and an empty margin. -/
def Diagnostic.headingRows (language : Language) (m : SourceMap) (d : Diagnostic) : List Bytes :=
  let f := m.file d.span.file
  let place := f.locate d.span.lo
  [d.severity.name ++ utf8 "[" ++ d.finding.name ++ utf8 "]: " ++ d.message language,
    utf8 " --> " ++ f.name ++ utf8 ":" ++ Decimal.ofWord place.line ++ utf8 ":" ++
      Decimal.ofWord place.column,
    utf8 "  |"]

/-- Cut at line feeds, the text is the rows of a heading, then one row for each line, their numbers
ending in one column, and right below the row of line `l` one row of carets. There is no other row;
the last one ends with a line feed, so an empty stretch is left over. -/
structure Layout (text : Bytes) (heading : List Bytes) (front : List Line) (l : Line)
    (back : List Line) (width : Nat) (before carets : UInt32) : Prop where
  three : heading.length = 3
  aligned : ∀ x ∈ front ++ l :: back, (Decimal.ofWord x.number).length ≤ width
  shown : 1 ≤ carets
  rows : text.splitOn Byte.lf =
    heading ++ front.map (numberedRow width) ++
      numberedRow width l :: caretsBelow width before carets :: back.map (numberedRow width) ++ [[]]

/-! ### Bytes of a heading -/

theorem Bytes.mem_replaceFrom {pattern replacement : Bytes} {skip : Nat} {s : Bytes} {b : UInt8}
    (h : b ∈ replaceFrom pattern replacement skip s) : b ∈ replacement ∨ b ∈ s := by
  fun_induction replaceFrom pattern replacement skip s with
  | case1 => cases h
  | case2 _ _ _ ih => exact (ih h).imp_right (List.mem_cons_of_mem _)
  | case3 c rest _ ih =>
      rcases List.mem_append.mp h with h | h
      · exact .inl h
      · exact (ih h).imp_right (List.mem_cons_of_mem _)
  | case4 c rest _ ih =>
      rcases List.mem_cons.mp h with rfl | h
      · exact .inr List.mem_cons_self
      · exact (ih h).imp_right (List.mem_cons_of_mem _)

theorem mem_fillFrom {index : Nat} {text : Bytes} {args : List Bytes} {b : UInt8}
    (h : b ∈ fillFrom index text args) : b ∈ text ∨ ∃ arg ∈ args, b ∈ arg := by
  induction args generalizing index text with
  | nil => exact .inl h
  | cons arg args ih =>
      rcases ih h with h | ⟨other, hother, hb⟩
      · rcases Bytes.mem_replaceFrom h with h | h
        · exact .inr ⟨arg, List.mem_cons_self, h⟩
        · exact .inl h
      · exact .inr ⟨other, List.mem_cons_of_mem _ hother, hb⟩

/-- A byte below 0x80 of an encoded character is the whole of it. -/
theorem toNat_eq_of_mem_utf8EncodeChar {c : Char} {b : UInt8} (h : b ∈ String.utf8EncodeChar c)
    (hb : b < 0x80) : c.toNat = b.toNat := by
  have hcode : c.val.toNat = c.toNat := rfl
  have hsmall : b.toNat < 0x80 := UInt8.lt_iff_toNat_lt.mp hb
  unfold String.utf8EncodeChar at h
  rw [hcode] at h
  dsimp only at h
  split_ifs at h
  · obtain rfl := List.mem_singleton.mp h
    rw [UInt8.toNat_ofNat']
    omega
  all_goals
    simp only [List.mem_cons, List.not_mem_nil, or_false, ← UInt8.toNat_inj,
      UInt8.toNat_ofNat'] at h
    omega

theorem lf_not_mem_utf8 {cs : List Char} (h : '\n' ∉ cs) : Byte.lf ∉ utf8 (String.ofList cs) := by
  rw [utf8, String.toList_ofList, List.mem_flatMap]
  rintro ⟨c, hc, hlf⟩
  have hcode : c.toNat = '\n'.toNat := toNat_eq_of_mem_utf8EncodeChar hlf (by decide)
  exact h (Char.toNat_inj.mp hcode ▸ hc)

theorem lf_not_mem_template (language : Language) (finding : Finding) :
    Byte.lf ∉ finding.template language := by
  cases language with
  | english =>
      rw [Finding.template]
      cases finding with
      | lineEndingMismatch | deadTrailingEmit =>
          rw [Finding.englishTemplate, List.mem_append, not_or]
          exact ⟨lf_not_mem_utf8 (by decide), lf_not_mem_utf8 (by decide)⟩
      | _ => exact lf_not_mem_utf8 (by decide)
  | korean =>
      rw [Finding.template]
      cases finding with
      | lineEndingMismatch =>
          rw [Finding.koreanTemplate, List.mem_append, not_or]
          exact ⟨lf_not_mem_utf8 (by decide), lf_not_mem_utf8 (by decide)⟩
      | _ => exact lf_not_mem_utf8 (by decide)

theorem lf_not_mem_message (language : Language) {d : Diagnostic}
    (hargs : ∀ arg ∈ d.args, Byte.lf ∉ arg) : Byte.lf ∉ d.message language := by
  intro h
  rcases mem_fillFrom h with h | ⟨arg, harg, h⟩
  · exact lf_not_mem_template language d.finding h
  · exact hargs arg harg h

theorem lf_not_mem_headingRows (language : Language) {m : SourceMap} {d : Diagnostic}
    (hargs : ∀ arg ∈ d.args, Byte.lf ∉ arg) (hname : Byte.lf ∉ (m.file d.span.file).name) :
    ∀ row ∈ d.headingRows language m, Byte.lf ∉ row := by
  have hseverity : Byte.lf ∉ d.severity.name := by cases d.severity <;> decide
  have hfinding : Byte.lf ∉ d.finding.name := by cases d.finding <;> decide
  have hmessage := lf_not_mem_message language hargs
  have hword (w : UInt32) : Byte.lf ∉ Decimal.ofWord w := Decimal.lf_not_mem_ofNat _
  have hfixed : Byte.lf ∉ utf8 "[" ∧ Byte.lf ∉ utf8 "]: " ∧ Byte.lf ∉ utf8 " --> " ∧
      Byte.lf ∉ utf8 ":" ∧ Byte.lf ∉ utf8 "  |" := by decide
  intro row hrow
  simp only [Diagnostic.headingRows, List.mem_cons, List.not_mem_nil, or_false] at hrow
  rcases hrow with rfl | rfl | rfl
  · simp only [List.mem_append, not_or]
    exact ⟨⟨⟨⟨hseverity, hfixed.1⟩, hfinding⟩, hfixed.2.1⟩, hmessage⟩
  · simp only [List.mem_append, not_or]
    exact ⟨⟨⟨⟨⟨hfixed.2.2.1, hname⟩, hfixed.2.2.2.1⟩, hword _⟩, hfixed.2.2.2.1⟩, hword _⟩
  · exact hfixed.2.2.2.2

theorem Diagnostic.heading_eq_rows (language : Language) (m : SourceMap) (d : Diagnostic) :
    d.heading language m = (d.headingRows language m).flatMap (· ++ [Byte.lf]) := by
  have hend : utf8 "\n" = [Byte.lf] := by decide
  have hmargin : utf8 "  |\n" = utf8 "  |" ++ [Byte.lf] := by decide
  simp only [heading, headingRows, hend, hmargin, List.flatMap_cons, List.flatMap_nil,
    List.append_assoc, List.append_nil]

theorem lf_not_mem_numberedRow {width : Nat} {l : Line} :
    Byte.lf ∉ numberedRow width l ↔ Byte.lf ∉ l.text := by
  have hfill (n : Nat) : Byte.lf ∉ Bytes.fill n Byte.space := fun h =>
    absurd (List.eq_of_mem_replicate h) (by decide)
  have hbar : Byte.lf ∉ utf8 " | " := by decide
  simp only [numberedRow, List.mem_append, not_or]
  exact ⟨fun h => h.2, fun h => ⟨⟨⟨hfill _, Decimal.lf_not_mem_ofNat _⟩, hbar⟩, h⟩⟩

theorem lf_not_mem_caretsBelow (width : Nat) (before carets : UInt32) :
    Byte.lf ∉ caretsBelow width before carets := by
  have hfill (n : Nat) : Byte.lf ∉ Bytes.fill n Byte.space := fun h =>
    absurd (List.eq_of_mem_replicate h) (by decide)
  have hcarets (n : Nat) : Byte.lf ∉ Bytes.fill n 0x5E := fun h =>
    absurd (List.eq_of_mem_replicate h) (by decide)
  have hbar : Byte.lf ∉ utf8 " | " := by decide
  simp only [caretsBelow, Diagnostic.caretRow, List.mem_append, not_or]
  exact ⟨⟨hfill _, hbar⟩, hfill _, hcarets _⟩

/-! ### Rows of a block -/

/-- No line with a layout has a line feed in it: it would be cut there. -/
theorem Layout.lf_not_mem {text : Bytes} {heading : List Bytes} {front back : List Line}
    {l : Line} {width : Nat} {before carets : UInt32}
    (h : Layout text heading front l back width before carets) :
    ∀ x ∈ front ++ l :: back, Byte.lf ∉ x.text := by
  intro x hx
  have hrow : numberedRow width x ∈ text.splitOn Byte.lf := by
    rw [h.rows]
    rcases List.mem_append.mp hx with hx | hx
    · simp [List.mem_map_of_mem hx]
    · rcases List.mem_cons.mp hx with rfl | hx
      · simp
      · simp [List.mem_map_of_mem hx]
  exact lf_not_mem_numberedRow.mp (Newline.lf_not_mem_of_mem_splitOn hrow)

/-- Below the heading there is a bar in every row. -/
theorem Layout.bar_of_mem {text : Bytes} {heading rest : List Bytes} {front back : List Line}
    {l : Line} {width : Nat} {before carets : UInt32}
    (h : Layout text heading front l back width before carets)
    (hrest : text.splitOn Byte.lf = heading ++ rest) :
    ∀ row ∈ rest, utf8 " | " <:+: row ∨ row = [] := by
  have hrows := hrest.symm.trans h.rows
  rw [List.append_assoc, List.append_assoc] at hrows
  rw [List.append_cancel_left hrows]
  have hnumbered (x : Line) : utf8 " | " <:+: numberedRow width x := ⟨_, x.text, rfl⟩
  have hcarets : utf8 " | " <:+: caretsBelow width before carets := ⟨_, _, rfl⟩
  simp only [List.forall_mem_append, List.forall_mem_cons, List.forall_mem_map]
  exact ⟨fun x _ => .inl (hnumbered x),
    ⟨.inl (hnumbered l), .inl hcarets, fun x _ => .inl (hnumbered x)⟩, .inr trivial, by simp⟩

/-- Rows without line feeds are found again when the text that they make up is cut. -/
theorem Layout.of_rows {heading : List Bytes} {front back : List Line} {l : Line} {width : Nat}
    {before carets : UInt32} (hthree : heading.length = 3)
    (hheading : ∀ row ∈ heading, Byte.lf ∉ row)
    (haligned : ∀ x ∈ front ++ l :: back, (Decimal.ofWord x.number).length ≤ width)
    (hshown : 1 ≤ carets) (hfree : ∀ x ∈ front ++ l :: back, Byte.lf ∉ x.text) :
    Layout ((heading ++ (front.map (numberedRow width) ++ numberedRow width l ::
      caretsBelow width before carets :: back.map (numberedRow width))).flatMap (· ++ [Byte.lf]))
      heading front l back width before carets := by
  simp only [List.forall_mem_append, List.forall_mem_cons] at hfree
  have hnumbered {ls : List Line} (h : ∀ x ∈ ls, Byte.lf ∉ x.text) :
      ∀ row ∈ ls.map (numberedRow width), Byte.lf ∉ row := by
    rw [List.forall_mem_map]
    exact fun x hx => lf_not_mem_numberedRow.mpr (h x hx)
  refine ⟨hthree, haligned, hshown, ?_⟩
  rw [Newline.splitOn_flatMap, ← List.append_assoc heading]
  simp only [List.forall_mem_append, List.forall_mem_cons]
  exact ⟨hheading, hnumbered hfree.1, lf_not_mem_numberedRow.mpr hfree.2.1,
    lf_not_mem_caretsBelow width before carets, hnumbered hfree.2.2⟩

theorem Newline.number_of_split {rule : Newline} {s : Bytes} {k : Nat} {l : Line}
    (hl : (rule.split s)[k]? = some l) : l.number = UInt32.ofNat (k + 1) := by
  obtain ⟨p, _, rfl⟩ := exists_piece_of_split hl
  rfl

namespace Diagnostic

/-- A block is written row by row, and its carets below one of the rows. -/
theorem blockRows_eq {b : Block} {width k : Nat} {ls : List Line}
    (hnumber : ∀ j l, ls[j]? = some l → l.number = b.firstLine + UInt32.ofNat (k + j))
    (haligned : ∀ l ∈ ls, (Decimal.ofWord l.number).length ≤ width) :
    blockRows b width (UInt32.ofNat k) (ls.map (·.text)) =
      (ls.zipIdx k).flatMap fun e => (numberedRow (2 + width) e.1 ++ [Byte.lf]) ++
        if UInt32.ofNat e.2 = b.caretOffset then
          caretsBelow (2 + width) b.caretsBefore b.carets ++ [Byte.lf]
        else [] := by
  have hend : utf8 "\n" = [Byte.lf] := by decide
  have hmargin : utf8 "  " = Bytes.fill 2 Byte.space := by decide
  induction ls generalizing k with
  | nil => rfl
  | cons l ls ih =>
      rw [List.forall_mem_cons] at haligned
      have hfirst : b.firstLine + UInt32.ofNat k = l.number := (hnumber 0 l rfl).symm
      have hrest : ∀ j x, ls[j]? = some x → x.number = b.firstLine + UInt32.ofNat (k + 1 + j) := by
        intro j x hx
        rw [Nat.add_assoc, Nat.add_comm 1 j]
        exact hnumber (j + 1) x hx
      have hnext : UInt32.ofNat k + 1 = UInt32.ofNat (k + 1) := UInt32.ofNat_add k 1 |>.symm
      have hpad : 2 + width - (Decimal.ofWord l.number).length =
          2 + (width - (Decimal.ofWord l.number).length) := Nat.add_sub_assoc haligned.1 2
      rw [List.map_cons, blockRows, hfirst, hnext, ih hrest haligned.2, List.zipIdx_cons,
        List.flatMap_cons, numberedRow, caretsBelow, hend, hmargin, hpad]
      simp only [Bytes.fill, ← List.replicate_append_replicate, List.append_assoc]

end Diagnostic

namespace SourceFile

/-- The lines in the block of a span on line `i`. The position of the last one wraps around. -/
def excerpt (f : SourceFile) (i : Nat) (context : UInt32) : List Line :=
  (f.lines.drop (i - context.toNat)).take
    (min ((i + context.toNat) % UInt32.size) (f.lines.length - 1) + 1 - (i - context.toNat))

variable {f : SourceFile} {i : Nat} {l : Line}

theorem number_of_excerpt {context : UInt32} {j : Nat}
    (hl : (f.excerpt i context)[j]? = some l) :
    l.number = UInt32.ofNat (i - context.toNat + j + 1) := by
  rw [excerpt, List.getElem?_take] at hl
  split_ifs at hl
  rw [List.getElem?_drop] at hl
  exact Newline.number_of_split hl

theorem length_excerpt_le (f : SourceFile) (i : Nat) (context : UInt32) :
    (f.excerpt i context).length ≤ f.lines.length - (i - context.toNat) := by
  rw [excerpt, List.length_take, List.length_drop]
  exact Nat.min_le_right _ _

/-- Where no word wraps around, the lines are the ones around line `i`. -/
theorem excerpt_eq (hl : f.lines[i]? = some l) {context : UInt32}
    (hsum : i + context.toNat < UInt32.size) :
    f.excerpt i context = (f.lines.take i).drop (i - context.toNat) ++
      l :: (f.lines.drop (i + 1)).take context.toNat := by
  rw [excerpt, Nat.mod_eq_of_lt hsum, take_drop_around hl]

theorem lineIndex_lt (hne : f.lines ≠ []) (offset : UInt32) :
    lineIndex f.lines offset < f.lines.length := by
  have hpos := List.length_pos_iff.mpr hne
  have hle := (List.takeWhile_prefix (l := f.lines) fun l => l.start ≤ offset).length_le
  rw [lineIndex]
  omega

theorem block_carets (f : SourceFile) (span : Span) (context : UInt32) :
    (f.block span context).caretsBefore = (f.snippet span).caretsBefore ∧
      (f.block span context).carets = (f.snippet span).carets := by
  unfold block snippet
  split
  · exact ⟨rfl, rfl⟩
  · exact ⟨rfl, rfl⟩

/-- A block is rendered as a heading and the rows of its lines, with the numbers in one column and
the carets below the row of the span's line, if that is among them. -/
theorem renderBlock_eq (hlength : f.lines.length < UInt32.size) (language : Language)
    {m : SourceMap} {d : Diagnostic} (hf : m.file d.span.file = f) (hi : i < f.lines.length)
    (hindex : lineIndex f.lines d.span.lo = i) (context : UInt32) :
    ∃ width, (∀ x ∈ f.excerpt i context, (Decimal.ofWord x.number).length ≤ width) ∧
      d.renderBlock language m context =
        (d.headingRows language m).flatMap (· ++ [Byte.lf]) ++
          ((f.excerpt i context).zipIdx).flatMap fun e =>
            (numberedRow width e.1 ++ [Byte.lf]) ++
              if UInt32.ofNat e.2 = (f.block d.span context).caretOffset then
                caretsBelow width (f.snippet d.span).caretsBefore (f.snippet d.span).carets ++
                  [Byte.lf]
              else [] := by
  let first := i - context.toNat
  let b := f.block d.span context
  let digits := (Decimal.ofWord (b.firstLine + UInt32.ofNat b.lines.length - 1)).length
  obtain ⟨hlines, hfirst, _⟩ := block_eq hlength hi hindex context
  have hshown : b.lines = (f.excerpt i context).map (·.text) := hlines
  have hbelow : first < f.lines.length := Nat.lt_of_le_of_lt (Nat.sub_le i context.toNat) hi
  have hstart : b.firstLine = UInt32.ofNat (first + 1) := by
    have hget := List.getElem?_eq_getElem hbelow
    rw [hfirst, hget]
    exact Newline.number_of_split hget
  have hlength' := f.length_excerpt_le i context
  have hlast : b.firstLine + UInt32.ofNat b.lines.length - 1 =
      UInt32.ofNat (first + (f.excerpt i context).length) := by
    rw [hstart, hshown, List.length_map, ← UInt32.ofNat_add, Nat.add_right_comm, UInt32.ofNat_add]
    exact UInt32.add_sub_cancel _ _
  have haligned : ∀ x ∈ f.excerpt i context, (Decimal.ofWord x.number).length ≤ digits := by
    intro x hx
    obtain ⟨j, hj⟩ := List.mem_iff_getElem?.mp hx
    have hinside := (List.getElem?_eq_some_iff.mp hj).1
    have hnumber := number_of_excerpt hj
    refine Decimal.length_ofNat_mono ?_
    rw [hlast, hnumber, UInt32.toNat_ofNat_of_lt' (by omega), UInt32.toNat_ofNat_of_lt' (by omega)]
    omega
  have hnumbers : ∀ j l, (f.excerpt i context)[j]? = some l →
      l.number = b.firstLine + UInt32.ofNat (0 + j) := by
    intro j l hl
    rw [number_of_excerpt hl, hstart, ← UInt32.ofNat_add]
    congr 1
    omega
  have hrows := Diagnostic.blockRows_eq hnumbers haligned
  obtain ⟨hbefore, hcarets⟩ := f.block_carets d.span context
  refine ⟨2 + digits, fun x hx => Nat.le_add_left_of_le (haligned x hx), ?_⟩
  rw [← hshown, hbefore, hcarets] at hrows
  rw [Diagnostic.renderBlock, hf, Diagnostic.heading_eq_rows, ← hrows]
  rfl

/-- Carets with as many lines before them as there are rows stand below the row after those. -/
theorem flatMap_rows_eq {front back : List Line} (l : Line) (width : Nat) (carets : Bytes)
    {offset : UInt32} (hoffset : offset.toNat = front.length)
    (hsize : (front ++ l :: back).length < UInt32.size) :
    ((front ++ l :: back).zipIdx).flatMap (fun e => (numberedRow width e.1 ++ [Byte.lf]) ++
        if UInt32.ofNat e.2 = offset then carets ++ [Byte.lf] else []) =
      (front.map (numberedRow width) ++
        numberedRow width l :: carets :: back.map (numberedRow width)).flatMap
          (· ++ [Byte.lf]) := by
  let between (j : Nat) : Bytes := if UInt32.ofNat j = offset then carets ++ [Byte.lf] else []
  rw [List.length_append, List.length_cons] at hsize
  have hword {j : Nat} (hj : j < UInt32.size) : UInt32.ofNat j = offset ↔ j = front.length := by
    rw [← hoffset, ← UInt32.toNat_inj, UInt32.toNat_ofNat_of_lt' hj]
  have hhere : between front.length = carets ++ [Byte.lf] :=
    if_pos ((hword (by omega)).mpr rfl)
  have hbefore : ∀ j < front.length, between (0 + j) = [] := fun j hj =>
    if_neg fun h => absurd ((hword (by omega)).mp h) (by omega)
  have hbehind : ∀ j < back.length, between (front.length + 1 + j) = [] := fun j hj =>
    if_neg fun h => absurd ((hword (by omega)).mp h) (by omega)
  have hfront := flatMap_zipIdx_of_nil (fun x => numberedRow width x ++ [Byte.lf]) hbefore
  have hback := flatMap_zipIdx_of_nil (fun x => numberedRow width x ++ [Byte.lf]) hbehind
  rw [List.zipIdx_append, List.flatMap_append, hfront, Nat.zero_add, List.zipIdx_cons,
    List.flatMap_cons, hback]
  change _ ++ ((_ ++ between front.length) ++ _) = _
  rw [hhere]
  simp only [List.flatMap_append, List.flatMap_cons, List.flatMap_map, List.append_assoc]

/-- Where no word wraps around, a block is rendered as a heading and the rows of a layout. -/
theorem renderBlock_eq_rows (hlength : f.lines.length < UInt32.size) (language : Language)
    {m : SourceMap} {d : Diagnostic} (hf : m.file d.span.file = f) (hl : f.lines[i]? = some l)
    (hindex : lineIndex f.lines d.span.lo = i) {context : UInt32}
    (hsum : i + context.toNat < UInt32.size) :
    let front := (f.lines.take i).drop (i - context.toNat)
    let back := (f.lines.drop (i + 1)).take context.toNat
    let s := f.snippet d.span
    (f.block d.span context).lines = (front ++ l :: back).map (·.text) ∧
      ∃ width, (∀ x ∈ front ++ l :: back, (Decimal.ofWord x.number).length ≤ width) ∧
        d.renderBlock language m context = (d.headingRows language m ++
          (front.map (numberedRow width) ++ numberedRow width l ::
            caretsBelow width s.caretsBefore s.carets ::
              back.map (numberedRow width))).flatMap (· ++ [Byte.lf]) := by
  intro front back s
  obtain ⟨hi, _⟩ := List.getElem?_eq_some_iff.mp hl
  have hexcerpt : f.excerpt i context = front ++ l :: back := excerpt_eq hl hsum
  obtain ⟨hlines, _, hcaret⟩ := block_eq hlength hi hindex context
  obtain ⟨width, haligned, hrender⟩ := renderBlock_eq hlength language hf hi hindex context
  have hfront : front.length = i - (i - context.toNat) := by
    rw [List.length_drop, List.length_take_of_le (Nat.le_of_lt hi)]
  have hshown : (front ++ l :: back).length < UInt32.size := by
    rw [← hexcerpt]
    exact Nat.lt_of_le_of_lt (f.length_excerpt_le i context) (by omega)
  rw [hexcerpt] at haligned hrender
  rw [flatMap_rows_eq _ width _ (hcaret.trans hfront.symm) hshown, ← List.flatMap_append] at hrender
  refine ⟨?_, width, haligned, hrender⟩
  rw [← hexcerpt]
  exact hlines

/-- No line that is cut at line feeds has one in it. -/
theorem lf_not_mem_line (hrule : f.newline ≠ .crlf) (hl : l ∈ f.lines) : Byte.lf ∉ l.text := by
  obtain ⟨k, p, hp, rfl⟩ := Newline.exists_piece_of_mem_split hl
  have hfree := (f.newline.cut_pieces f.content).free p (List.mem_of_getElem? hp)
  cases hnewline : f.newline with
  | crlf => exact absurd hnewline hrule
  | lf =>
      rw [hnewline] at hfree
      exact hfree
  | universal =>
      rw [hnewline] at hfree
      exact hfree.2

/-- A block has its layout exactly if no line that it shows has a line feed in it. -/
theorem renderBlock_layout_iff (f : SourceFile) (hne : f.lines ≠ []) (hname : Byte.lf ∉ f.name)
    (hlength : f.lines.length < UInt32.size / 2) {m : SourceMap} {d : Diagnostic}
    (hf : m.file d.span.file = f) (hargs : ∀ arg ∈ d.args, Byte.lf ∉ arg) (language : Language)
    {context : UInt32} (hcontext : context.toNat < UInt32.size / 2) :
    ∃ i l, f.lines[i]? = some l ∧
      (f.content.length < UInt32.size → ∀ j, f.Holds j d.span.lo ↔ j = i) ∧
      let front := (f.lines.take i).drop (i - context.toNat)
      let back := (f.lines.drop (i + 1)).take context.toNat
      let LaidOut := ∃ width, Layout (d.renderBlock language m context) (d.headingRows language m)
        front l back width (f.snippet d.span).caretsBefore (f.snippet d.span).carets
      (f.block d.span context).lines = (front ++ l :: back).map (·.text) ∧
      (LaidOut ↔ ∀ x ∈ front ++ l :: back, Byte.lf ∉ x.text) ∧
      (f.newline ≠ .crlf → LaidOut) := by
  let i := lineIndex f.lines d.span.lo
  have hi : i < f.lines.length := lineIndex_lt hne d.span.lo
  have hl : f.lines[i]? = some f.lines[i] := List.getElem?_eq_getElem hi
  refine ⟨i, f.lines[i], hl, ?_, ?_⟩
  · intro hsize
    obtain ⟨k, hk⟩ := exists_holds hne d.span.lo
    have hki : i = k := hk.lineIndex_eq hsize
    rw [hki]
    exact hk.iff_eq hsize
  intro front back LaidOut
  have hword : f.lines.length < UInt32.size := Nat.lt_trans hlength (by decide)
  have hsum : i + context.toNat < UInt32.size := by omega
  obtain ⟨hlines, width, haligned, hrender⟩ :=
    renderBlock_eq_rows hword language hf hl rfl hsum
  have hlaid : LaidOut ↔ ∀ x ∈ front ++ f.lines[i] :: back, Byte.lf ∉ x.text := by
    constructor
    · rintro ⟨_, h⟩
      exact h.lf_not_mem
    · intro hfree
      have hheading : ∀ row ∈ d.headingRows language m, Byte.lf ∉ row :=
        lf_not_mem_headingRows language hargs (hf ▸ hname)
      refine ⟨width, ?_⟩
      rw [hrender]
      exact .of_rows rfl hheading haligned (f.snippet_carets_pos d.span) hfree
  refine ⟨hlines, hlaid, fun hrule => hlaid.mpr fun x hx => lf_not_mem_line hrule ?_⟩
  rcases List.mem_append.mp hx with hx | hx
  · exact List.mem_of_mem_take (List.mem_of_mem_drop hx)
  · rcases List.mem_cons.mp hx with rfl | hx
    · exact List.getElem_mem hi
    · exact List.mem_of_mem_drop (List.mem_of_mem_take hx)

/-- The two lines after one that has a line feed in it are laid out. -/
theorem renderBlock_layout_behind_feed :
    let f : SourceFile := ⟨utf8 "a.qs", utf8 "a\nb\r\np\r\nt\r\n", .crlf⟩
    let d : Diagnostic := ⟨.error, .invalidStatement, ⟨0, 8, 9⟩, [utf8 "3"]⟩
    f.lines ≠ [] ∧ Byte.lf ∉ f.name ∧ f.lines.length < UInt32.size / 2 ∧ SourceMap.file [f] 0 = f ∧
      (∀ arg ∈ d.args, Byte.lf ∉ arg) ∧ (1 : UInt32).toNat < UInt32.size / 2 ∧ f.Holds 2 d.span.lo ∧
      ∃ width, Layout (d.renderBlock .english [f] 1) (d.headingRows .english [f])
        [⟨utf8 "p", 2, 5, false⟩] ⟨utf8 "t", 3, 8, false⟩ [] width 0 1 := by
  intro f d
  have hlines : f.lines = [⟨utf8 "a\nb", 1, 0, true⟩, ⟨utf8 "p", 2, 5, false⟩,
      ⟨utf8 "t", 3, 8, false⟩] := by decide +kernel
  have hne : f.lines ≠ [] := by
    rw [hlines]
    exact List.cons_ne_nil _ _
  have hname : Byte.lf ∉ f.name := by decide
  have hlength : f.lines.length < UInt32.size / 2 := by
    rw [hlines]
    decide
  have hf : SourceMap.file [f] 0 = f := rfl
  have hargs : ∀ arg ∈ d.args, Byte.lf ∉ arg := by decide
  have hcontext : (1 : UInt32).toNat < UInt32.size / 2 := by decide
  have hholds : f.Holds 2 d.span.lo := by
    refine ⟨⟨utf8 "t", 3, 8, false⟩, by rw [hlines]; rfl, by decide, ?_⟩
    rw [hlines]
    exact fun m hm => by cases hm
  obtain ⟨i, l, hl, hi, hlaid⟩ :=
    renderBlock_layout_iff f hne hname hlength (m := [f]) (d := d) hf hargs .english hcontext
  obtain rfl := (hi (by decide) 2).mp hholds
  have hsnippet : (f.snippet d.span).caretsBefore = 0 ∧ (f.snippet d.span).carets = 1 := by
    decide +kernel
  rw [hlines] at hl hlaid
  obtain rfl := Option.some.inj hl
  rw [hsnippet.1, hsnippet.2] at hlaid
  exact ⟨hne, hname, hlength, hf, hargs, hcontext, hholds, hlaid.2.1.mpr (by decide)⟩

/-- The report of a line feed inside a line is not laid out: that line's row is cut at the line
feed, and the carets below it stand under the second part. -/
theorem renderBlock_cut_at_reported_feed :
    let f : SourceFile := ⟨utf8 "a.qs", utf8 "a\nb\r\n", .crlf⟩
    let l : Line := ⟨utf8 "a\nb", 1, 0, true⟩
    let d := Diagnostic.lineEnding 0 l
    Diagnostic.ofSource f.content 0 f.newline = [d] ∧ f.lines = [l] ∧
      Byte.lf ∉ f.name ∧ SourceMap.file [f] 0 = f ∧ (∀ arg ∈ d.args, Byte.lf ∉ arg) ∧
      f.Holds 0 d.span.lo ∧
      (d.renderBlock .english [f] 2).splitOn Byte.lf = d.headingRows .english [f] ++
        [utf8 "  1 | a", utf8 "b", utf8 "    |  ^", []] ∧
      ∀ front x back width before carets, ¬ Layout (d.renderBlock .english [f] 2)
        (d.headingRows .english [f]) front x back width before carets := by
  intro f l d
  have hlines : f.lines = [l] := by decide +kernel
  have hrows : (d.renderBlock .english [f] 2).splitOn Byte.lf = d.headingRows .english [f] ++
      [utf8 "  1 | a", utf8 "b", utf8 "    |  ^", []] := by decide +kernel
  have hholds : f.Holds 0 d.span.lo := by
    refine ⟨l, by rw [hlines]; rfl, by decide, ?_⟩
    rw [hlines]
    exact fun m hm => by cases hm
  refine ⟨by decide +kernel, hlines, by decide, rfl, by decide, hholds, hrows, ?_⟩
  intro front x back width before carets h
  rcases h.bar_of_mem hrows (utf8 "b") (.tail _ (.head _)) with hbar | hnil
  · exact absurd hbar.length_le (by decide)
  · exact absurd hnil (by decide)

end SourceFile
end Linewise
