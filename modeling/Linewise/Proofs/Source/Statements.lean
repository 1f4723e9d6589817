import Linewise.Diagnostic.Basic
import Linewise.Proofs.Decimal
import Linewise.Proofs.Source.Starts
/-!
What is read from a source. Every logical line is one statement, whose span has the bytes of the
line, and what is reported of a line points at the byte of the source that gave rise to it.
-/
namespace Linewise

/-- The bytes of a source under a span. -/
def Span.bytes (span : Span) (source : Bytes) : Bytes :=
  (source.drop span.lo.toNat).take (span.hi.toNat - span.lo.toNat)

/-- The byte that a line starts with if its statement is of the kind; any other line is an emit. -/
def Kind.marker? : Kind → Option UInt8
  | .print => some 0x70
  | .invalid => some 0x74
  | .comment => some Byte.hash
  | .emit => none

/-- The statement is that of a line with this number and text, which starts at this offset. -/
structure Statement.Reads (s : Statement) (source : Bytes) (file : UInt32) (number start : Nat)
    (text : Bytes) : Prop where
  line : s.line.toNat = number
  file : s.span.file = file
  lo : s.span.lo.toNat = start
  hi : s.span.hi.toNat = start + text.length
  bytes : s.span.bytes source = text
  kind : ∀ kind b, kind.marker? = some b → (s.kind = kind ↔ text.head? = some b)
  payload : s.payload = if s.kind = .emit then s.span.bytes source else []

/-- The program is the statements of the pieces of the source, in order. -/
structure Program.Reads (p : Program) (source : Bytes) (file : UInt32) (ps : List Piece) :
    Prop where
  length : p.length = ps.length
  statement : ∀ k piece, ps[k]? = some piece →
    ∃ s : Statement, p[k]? = some s ∧ s.Reads source file (k + 1) (Piece.offset ps k) piece.text

namespace Diagnostic

/-- The diagnostic covers the one byte at an offset of the source. Its argument is the number of a
line, which it can tell up to the largest signed word. -/
structure PointsAt (d : Diagnostic) (source : Bytes) (file : UInt32) (number : Nat) (b : UInt8)
    (offset : Nat) : Prop where
  byte : source[offset]? = some b
  file : d.span.file = file
  lo : d.span.lo.toNat = offset
  hi : d.span.hi.toNat = offset + 1
  args : number < UInt32.size / 2 → d.args = [Decimal.ofNat number]

/-- What is found on a line: a line feed that does not end it, and the reserved marker. -/
structure FoundOn (source : Bytes) (file : UInt32) (rule : Newline) (number start : Nat)
    (text : Bytes) (mismatch invalid : Option Diagnostic) : Prop where
  mismatch_isSome : mismatch.isSome ↔ rule = .crlf ∧ Byte.lf ∈ text
  mismatch : ∀ d ∈ mismatch, d.severity = .warning ∧ d.finding = .lineEndingMismatch ∧
    d.PointsAt source file number Byte.lf (start + text.idxOf Byte.lf)
  invalid_isSome : invalid.isSome ↔ text.head? = some 0x74
  invalid : ∀ d ∈ invalid, d.severity = .error ∧ d.finding = .invalidStatement ∧
    d.PointsAt source file number 0x74 start

/-- The diagnostics are what is found on the pieces of the source, in order. -/
def FoundIn (ds : List Diagnostic) (source : Bytes) (file : UInt32) (rule : Newline)
    (ps : List Piece) : Prop :=
  ∃ found : List (Option Diagnostic × Option Diagnostic),
    ds = found.flatMap (fun f => f.1.toList ++ f.2.toList) ∧ found.length = ps.length ∧
      ∀ k p, ps[k]? = some p → ∃ mismatch invalid, found[k]? = some (mismatch, invalid) ∧
        FoundOn source file rule (k + 1) (Piece.offset ps k) p.text mismatch invalid

end Diagnostic

theorem Kind.ofLine_eq_iff {kind : Kind} {b : UInt8} (h : kind.marker? = some b) (text : Bytes) :
    Kind.ofLine text = kind ↔ text.head? = some b := by
  have hdistinct : (0x70 : UInt8) ≠ 0x74 ∧ (0x70 : UInt8) ≠ Byte.hash ∧ (0x74 : UInt8) ≠ Byte.hash :=
    by decide
  cases text with
  | nil =>
      cases kind with
      | emit => cases h
      | print | invalid | comment => simp [ofLine]
  | cons c rest =>
      rw [List.head?_cons, Option.some.injEq]
      cases kind with
      | emit => cases h
      | print | invalid | comment =>
          obtain rfl := Option.some.inj h
          grind [ofLine]

section
variable {source : Bytes} (file : UInt32) {rule : Newline} {ps : List Piece} {k : Nat} {p : Piece}

theorem Statement.reads_toLine (hcut : rule.Cut source ps) (hsize : source.length < UInt32.size)
    (hp : ps[k]? = some p) :
    let l := p.toLine rule ps k
    (Statement.ofText file l.number l.start l.text).Reads source file (k + 1) (Piece.offset ps k)
      p.text := by
  intro l
  have hlo : l.start.toNat = Piece.offset ps k := hcut.toNat_start hp hsize
  have hend := hcut.text_end_le hp
  have hhi : (l.start + UInt32.ofNat p.text.length).toNat =
      Piece.offset ps k + p.text.length := by
    rw [toNat_add_ofNat (by omega), hlo]
  have hbytes : Span.bytes ⟨file, l.start, l.start + UInt32.ofNat p.text.length⟩ source =
      p.text := by
    obtain ⟨rest, hrest⟩ := hcut.drop_offset hp
    rw [Span.bytes, hhi, hlo, hrest, Nat.add_sub_cancel_left, List.take_left' rfl]
  refine ⟨hcut.toNat_number hp hsize, rfl, hlo, hhi, hbytes, ?_, ?_⟩
  · intro kind b hb
    exact Kind.ofLine_eq_iff hb p.text
  · change (if Kind.ofLine p.text = .emit then p.text else []) =
      if Kind.ofLine p.text = .emit then
        Span.bytes ⟨file, l.start, l.start + UInt32.ofNat p.text.length⟩ source
      else []
    rw [hbytes]

theorem Diagnostic.pointsAt_within (hcut : rule.Cut source ps) (hsize : source.length < UInt32.size)
    (hp : ps[k]? = some p) {i : Nat} {b : UInt8} (hb : p.text[i]? = some b) {lo : UInt32}
    (hlo : lo.toNat = Piece.offset ps k + i) (severity : Severity) (finding : Finding) :
    PointsAt ⟨severity, finding, ⟨file, lo, lo + 1⟩,
      [Decimal.ofSignedWord (p.toLine rule ps k).number]⟩
      source file (k + 1) b (Piece.offset ps k + i) := by
  obtain ⟨hi, _⟩ := List.getElem?_eq_some_iff.mp hb
  have hnumber := hcut.toNat_number hp hsize
  have hend := hcut.text_end_le hp
  have hhi : (lo + UInt32.ofNat 1).toNat = lo.toNat + 1 := toNat_add_ofNat (by omega)
  refine ⟨?_, rfl, hlo, ?_, ?_⟩
  · rw [hcut.getElem?_offset hp hi, hb]
  · rw [hlo] at hhi
    exact hhi
  · intro hlt
    rw [← hnumber] at hlt
    rw [Decimal.ofSignedWord_of_lt hlt, hnumber]

/-- The statement of a line. -/
def Line.statement (file : UInt32) (l : Line) : Statement :=
  Statement.ofText file l.number l.start l.text

/-- The finding at the first line feed of a line, if there is one. -/
def Line.mismatch? (file : UInt32) (l : Line) : Option Diagnostic :=
  if l.bareLf then some (Diagnostic.lineEnding file l) else none

/-- The finding at the reserved marker of a line, if there is one. -/
def Line.invalid? (file : UInt32) (l : Line) : Option Diagnostic :=
  if (l.statement file).kind = .invalid then some (Diagnostic.invalidMarker (l.statement file))
  else none

namespace Diagnostic

theorem ofLine_eq (l : Line) :
    ofLine file l = (l.mismatch? file).toList ++ (l.invalid? file).toList := by
  rw [Line.mismatch?, Line.invalid?, apply_ite Option.toList, apply_ite Option.toList]
  rfl

theorem foundOn_toLine (hcut : rule.Cut source ps) (hsize : source.length < UInt32.size)
    (hp : ps[k]? = some p) :
    FoundOn source file rule (k + 1) (Piece.offset ps k) p.text
      ((p.toLine rule ps k).mismatch? file) ((p.toLine rule ps k).invalid? file) := by
  have hbare : (p.toLine rule ps k).bareLf = true ↔ rule = .crlf ∧ Byte.lf ∈ p.text := by
    simp [Piece.toLine]
  have hkind : ((p.toLine rule ps k).statement file).kind = .invalid ↔
      p.text.head? = some 0x74 := Kind.ofLine_eq_iff rfl p.text
  refine { mismatch_isSome := ?_, mismatch := ?_, invalid_isSome := ?_, invalid := ?_ }
  · rw [Line.mismatch?, Option.isSome_ite, hbare]
  · intro d hd
    rw [Line.mismatch?, Option.mem_ite_none_right] at hd
    obtain ⟨hlf, hd⟩ := hd
    obtain rfl := Option.some.inj hd
    have hmem := (hbare.mp hlf).2
    have hfirst : p.text[p.text.idxOf Byte.lf]? = some Byte.lf := by
      rw [List.getElem?_eq_getElem (List.idxOf_lt_length_of_mem hmem), List.getElem_idxOf]
    have hwithin := List.idxOf_lt_length_of_mem hmem
    have hend := hcut.text_end_le hp
    have hstart := hcut.toNat_start hp hsize
    have hlo : ((p.toLine rule ps k).start + UInt32.ofNat (p.text.idxOf Byte.lf)).toNat =
        Piece.offset ps k + p.text.idxOf Byte.lf := by
      rw [toNat_add_ofNat (by omega), hstart]
    exact ⟨rfl, rfl, pointsAt_within file hcut hsize hp hfirst hlo _ _⟩
  · rw [Line.invalid?, Option.isSome_ite, hkind]
  · intro d hd
    rw [Line.invalid?, Option.mem_ite_none_right] at hd
    obtain ⟨hinvalid, hd⟩ := hd
    obtain rfl := Option.some.inj hd
    have hfirst : p.text[0]? = some 0x74 := by
      rw [← List.head?_eq_getElem?]
      exact hkind.mp hinvalid
    exact ⟨rfl, rfl, pointsAt_within file hcut hsize hp hfirst (hcut.toNat_start hp hsize) _ _⟩

end Diagnostic
end

/-- Reading a source cuts it in the one way there is, into one statement a line, and reports what
is found on the lines and nothing else. -/
theorem Program.read_faithful (source : Bytes) (hsize : source.length < UInt32.size)
    (file : UInt32) (rule : Newline) (bag : Option Bag) :
    ∃ ps ds, (∀ qs, rule.Cut source qs ↔ qs = ps) ∧
      Program.Reads (Program.read source file rule bag).1 source file ps ∧
      (Program.read source file rule bag).2 = bag.map (·.report ds) ∧
      Diagnostic.FoundIn ds source file rule ps ∧
      (Program.read source file rule none).1 = (Program.read source file rule bag).1 := by
  have hcut := (rule.cut_iff source _).mpr rfl
  have hlines := rule.getElem?_split source
  have hlength : (rule.split source).length = (rule.pieces source).length :=
    rule.length_enumerate 0 0 _
  refine ⟨rule.pieces source, Diagnostic.ofSource source file rule, rule.cut_iff source, ?_, rfl,
    ?_, rfl⟩
  · refine ⟨by rw [read, ofSource, List.length_map, hlength], ?_⟩
    intro k p hp
    refine ⟨_, ?_, Statement.reads_toLine file hcut hsize hp⟩
    rw [read, ofSource, List.getElem?_map, hlines, hp]
    rfl
  · refine ⟨(rule.split source).map fun l => (l.mismatch? file, l.invalid? file), ?_, ?_, ?_⟩
    · rw [Diagnostic.ofSource, List.flatMap_map]
      exact congrArg ((rule.split source).flatMap ·) (funext (Diagnostic.ofLine_eq file))
    · rw [List.length_map, hlength]
    · intro k p hp
      refine ⟨_, _, ?_, Diagnostic.foundOn_toLine file hcut hsize hp⟩
      rw [List.getElem?_map, hlines, hp]
      rfl

/-- A line with a line feed in it, and a reserved line without a terminator. -/
theorem Program.read_faithful_of_unterminated_line :
    let source := utf8 "a\nb\r\nt"
    let ps : List Piece := [⟨utf8 "a\nb", utf8 "\r\n"⟩, ⟨utf8 "t", []⟩]
    source.length < UInt32.size ∧
      Program.Reads (Program.read source 3 .crlf (some {})).1 source 3 ps ∧
      ∃ bag, (Program.read source 3 .crlf (some {})).2 = some bag ∧
        Diagnostic.FoundIn bag.diagnostics source 3 .crlf ps := by
  intro source ps
  have hsize : source.length < UInt32.size := by decide
  have hlast : Newline.crlf.Cut (utf8 "t") [⟨utf8 "t", []⟩] := .last (by decide) (by decide)
  have hends : Newline.crlf.Ends (utf8 "\r\n") (utf8 "t") := .pair (by decide)
  have hfree : Newline.crlf.Free (utf8 "a\nb") := by decide
  have hcut : Newline.crlf.Cut source ps := .line hfree hends hlast
  obtain ⟨qs, ds, hqs, hreads, hbag, hfound, _⟩ := read_faithful source hsize 3 .crlf (some {})
  obtain rfl := (hqs ps).mp hcut
  exact ⟨hsize, hreads, ⟨ds⟩, hbag, hfound⟩

end Linewise
