import Linewise.Proofs.Source.Cut
import Linewise.SourceMap
/-!
Where lines start. Every piece of a source has a byte, so the offsets at which its lines start
increase as long as a word can hold them. Then an offset is looked up as the line that starts last
at the offset or before it.
-/
namespace Linewise

/-- Words are added like numbers as long as a word can hold the sum. -/
theorem toNat_add_ofNat {w : UInt32} {n : Nat} (h : w.toNat + n < UInt32.size) :
    (w + UInt32.ofNat n).toNat = w.toNat + n := by
  rw [UInt32.toNat_add, UInt32.toNat_ofNat_of_lt' (by omega), Nat.mod_eq_of_lt h]

namespace Piece

/-- The number of bytes before a piece. -/
def offset (ps : List Piece) (k : Nat) : Nat := ((ps.take k).flatMap (·.bytes)).length

/-- The line of a piece, by the position of the piece among all of its source. -/
def toLine (rule : Newline) (ps : List Piece) (k : Nat) (p : Piece) : Line :=
  { text := p.text
    number := UInt32.ofNat (k + 1)
    start := UInt32.ofNat (offset ps k)
    bareLf := rule == .crlf && p.text.contains Byte.lf }

theorem offset_zero (ps : List Piece) : offset ps 0 = 0 := rfl

theorem offset_cons (p : Piece) (ps : List Piece) (k : Nat) :
    offset (p :: ps) (k + 1) = p.bytes.length + offset ps k := by
  rw [offset, List.take_succ_cons, List.flatMap_cons, List.length_append, offset]

theorem offset_succ {ps : List Piece} {k : Nat} {p : Piece} (h : ps[k]? = some p) :
    offset ps (k + 1) = offset ps k + p.bytes.length := by
  rw [offset, List.take_add_one, h, List.flatMap_append, List.length_append, offset]
  simp

end Piece

namespace Newline

variable (rule : Newline)

/-- Nothing is lost and no piece is empty. -/
theorem pieces_bytes (s : Bytes) :
    (rule.pieces s).flatMap (·.bytes) = s ∧ ∀ p ∈ rule.pieces s, p.bytes ≠ [] :=
  (rule.cut_pieces s).bytes

theorem enumerate_starts {ps : List Piece} (hne : ∀ p ∈ ps, p.bytes ≠ []) (index offset : Nat)
    (hsize : offset + (ps.flatMap (·.bytes)).length < UInt32.size) :
    (∀ l ∈ Line.enumerate rule index offset ps, offset ≤ l.start.toNat) ∧
      (Line.enumerate rule index offset ps).Pairwise fun l m => l.start < m.start := by
  induction ps generalizing index offset with
  | nil => simp [Line.enumerate]
  | cons p ps ih =>
      rw [List.forall_mem_cons] at hne
      have hpos : 0 < p.bytes.length := List.length_pos_iff.mpr hne.1
      rw [List.flatMap_cons, List.length_append] at hsize
      obtain ⟨hlater, hsorted⟩ := ih hne.2 (index + 1) (offset + p.bytes.length) (by omega)
      have hstart : (UInt32.ofNat offset).toNat = offset := UInt32.toNat_ofNat_of_lt' (by omega)
      rw [Line.enumerate, List.forall_mem_cons, List.pairwise_cons]
      refine ⟨⟨Nat.le_of_eq hstart.symm, ?_⟩, ?_, hsorted⟩
      · intro l hl
        have hafter := hlater l hl
        omega
      · intro l hl
        have hafter := hlater l hl
        rw [UInt32.lt_iff_toNat_lt, hstart]
        omega

theorem split_starts {s : Bytes} (hsize : s.length < UInt32.size) :
    (rule.split s).Pairwise fun l m => l.start < m.start := by
  obtain ⟨hbytes, hne⟩ := rule.pieces_bytes s
  exact (rule.enumerate_starts hne 0 0 (by rw [hbytes]; omega)).2

theorem length_enumerate (index offset : Nat) (ps : List Piece) :
    (Line.enumerate rule index offset ps).length = ps.length := by
  induction ps generalizing index offset with
  | nil => rfl
  | cons p ps ih => rw [Line.enumerate, List.length_cons, List.length_cons, ih]

theorem getElem?_enumerate (index offset : Nat) (ps : List Piece) (k : Nat) :
    (Line.enumerate rule index offset ps)[k]? = ps[k]?.map fun p =>
      { text := p.text
        number := UInt32.ofNat (index + k + 1)
        start := UInt32.ofNat (offset + Piece.offset ps k)
        bareLf := rule == .crlf && p.text.contains Byte.lf } := by
  induction ps generalizing index offset k with
  | nil => rfl
  | cons p ps ih =>
      cases k with
      | zero => rfl
      | succ k =>
          rw [Line.enumerate, List.getElem?_cons_succ, List.getElem?_cons_succ, ih,
            Piece.offset_cons, Nat.add_assoc offset, Nat.add_assoc index 1 k, Nat.add_comm 1 k]

/-- The lines of a source are its pieces, numbered and placed. -/
theorem getElem?_split (s : Bytes) (k : Nat) :
    (rule.split s)[k]? = (rule.pieces s)[k]?.map (Piece.toLine rule (rule.pieces s) k) := by
  rw [split, getElem?_enumerate]
  simp only [Nat.zero_add]
  rfl

variable {rule} {s : Bytes} {ps : List Piece} {k : Nat} {p : Piece}

theorem exists_piece_of_split {l : Line} (hl : (rule.split s)[k]? = some l) :
    ∃ p, (rule.pieces s)[k]? = some p ∧ p.toLine rule (rule.pieces s) k = l := by
  rw [rule.getElem?_split] at hl
  exact Option.map_eq_some_iff.mp hl

theorem exists_piece_of_mem_split {l : Line} (hl : l ∈ rule.split s) :
    ∃ (k : Nat) (p : Piece), (rule.pieces s)[k]? = some p ∧
      p.toLine rule (rule.pieces s) k = l := by
  obtain ⟨k, hk⟩ := List.mem_iff_getElem?.mp hl
  exact ⟨k, exists_piece_of_split hk⟩

theorem Cut.around (h : rule.Cut s ps) (hp : ps[k]? = some p) :
    s = (ps.take k).flatMap (·.bytes) ++ (p.bytes ++ (ps.drop (k + 1)).flatMap (·.bytes)) := by
  obtain ⟨hlt, hget⟩ := List.getElem?_eq_some_iff.mp hp
  have hps : ps = ps.take k ++ p :: ps.drop (k + 1) := by
    rw [← hget, ← List.drop_eq_getElem_cons hlt, List.take_append_drop]
  conv_lhs => rw [← h.bytes.1, hps]
  rw [List.flatMap_append, List.flatMap_cons]

theorem Cut.offset_add_le (h : rule.Cut s ps) (hp : ps[k]? = some p) :
    Piece.offset ps k + p.bytes.length ≤ s.length := by
  have hlength := congrArg List.length (h.around hp)
  rw [List.length_append, List.length_append] at hlength
  rw [Piece.offset]
  omega

theorem Cut.text_end_le (h : rule.Cut s ps) (hp : ps[k]? = some p) :
    Piece.offset ps k + p.text.length ≤ s.length := by
  have hend := h.offset_add_le hp
  rw [Piece.bytes, List.length_append] at hend
  omega

theorem Cut.drop_offset (h : rule.Cut s ps) (hp : ps[k]? = some p) :
    ∃ rest, s.drop (Piece.offset ps k) = p.text ++ rest := by
  refine ⟨p.terminator ++ (ps.drop (k + 1)).flatMap (·.bytes), ?_⟩
  conv_lhs => rw [h.around hp]
  rw [Piece.offset, List.drop_left' rfl, Piece.bytes, List.append_assoc]

theorem Cut.getElem?_offset (h : rule.Cut s ps) (hp : ps[k]? = some p) {i : Nat}
    (hi : i < p.text.length) : s[Piece.offset ps k + i]? = p.text[i]? := by
  obtain ⟨rest, hrest⟩ := h.drop_offset hp
  rw [← List.getElem?_drop, hrest, List.getElem?_append_left hi]

/-- Every line before has a byte. -/
theorem Cut.le_offset (h : rule.Cut s ps) (hp : ps[k]? = some p) : k ≤ Piece.offset ps k := by
  induction h generalizing k with
  | nil => cases hp
  | last _ _ =>
      cases k with
      | zero => exact Nat.zero_le _
      | succ k => cases hp
  | @line text t rest ps _ hends _ ih =>
      cases k with
      | zero => exact Nat.zero_le _
      | succ k =>
          have hpos : 0 < t.length := List.length_pos_iff.mpr hends.ne_nil
          have hbytes : (Piece.bytes ⟨text, t⟩).length = text.length + t.length :=
            List.length_append
          have hk := ih hp
          rw [Piece.offset_cons, hbytes]
          omega

theorem Cut.number_le (h : rule.Cut s ps) (hp : ps[k]? = some p) : k + 1 ≤ s.length := by
  have hk := h.le_offset hp
  have hpos := List.length_pos_iff.mpr (h.bytes.2 p (List.mem_of_getElem? hp))
  have hend := h.offset_add_le hp
  omega

theorem Cut.toNat_number (h : rule.Cut s ps) (hp : ps[k]? = some p)
    (hsize : s.length < UInt32.size) : (p.toLine rule ps k).number.toNat = k + 1 :=
  UInt32.toNat_ofNat_of_lt' (Nat.lt_of_le_of_lt (h.number_le hp) hsize)

theorem Cut.toNat_start (h : rule.Cut s ps) (hp : ps[k]? = some p)
    (hsize : s.length < UInt32.size) : (p.toLine rule ps k).start.toNat = Piece.offset ps k :=
  UInt32.toNat_ofNat_of_lt'
    (Nat.lt_of_le_of_lt (Nat.le_trans (Nat.le_add_right _ _) (h.offset_add_le hp)) hsize)

end Newline

namespace SourceFile

theorem lineIndex_of_between {lines : List Line}
    (h : lines.Pairwise fun l m => l.start < m.start) {k : Nat} {l : Line}
    (hk : lines[k]? = some l) {offset : UInt32} (hlo : l.start ≤ offset)
    (hnext : ∀ m, lines[k + 1]? = some m → offset < m.start) : lineIndex lines offset = k := by
  obtain ⟨hlt, hget⟩ := List.getElem?_eq_some_iff.mp hk
  have hlines : lines = lines.take k ++ l :: lines.drop (k + 1) := by
    rw [← hget, ← List.drop_eq_getElem_cons hlt, List.take_append_drop]
  -- The lines up to `l` start no later than the offset, and the next one starts later.
  have hfront : ∀ m ∈ lines.take k, decide (m.start ≤ offset) = true := by
    intro m hm
    rw [hlines, List.pairwise_append] at h
    have hbefore : m.start < l.start := h.2.2 m hm l List.mem_cons_self
    exact decide_eq_true (UInt32.le_trans (UInt32.le_of_lt hbefore) hlo)
  have hrest : (lines.drop (k + 1)).takeWhile (fun m => m.start ≤ offset) = [] := by
    cases hdrop : lines.drop (k + 1) with
    | nil => rfl
    | cons m rest =>
        have hm : offset < m.start := hnext m (by rw [← List.head?_drop, hdrop]; rfl)
        exact List.takeWhile_cons_of_neg (by simpa using UInt32.not_le.mpr hm)
  rw [lineIndex, hlines, List.takeWhile_append_of_pos hfront,
    List.takeWhile_cons_of_pos (by simpa using hlo), hrest, List.length_append,
    List.length_take_of_le (Nat.le_of_lt hlt)]
  rfl

theorem lineIndex_start {lines : List Line} (h : lines.Pairwise fun l m => l.start < m.start)
    {k : Nat} {l : Line} (hk : lines[k]? = some l) : lineIndex lines l.start = k := by
  refine lineIndex_of_between h hk (UInt32.le_refl _) ?_
  intro m hm
  obtain ⟨_, rfl⟩ := List.getElem?_eq_some_iff.mp hk
  obtain ⟨_, rfl⟩ := List.getElem?_eq_some_iff.mp hm
  exact List.pairwise_iff_getElem.mp h _ _ _ _ (Nat.lt_succ_self k)

/-- An offset from a line's start up to the start of the next one is looked up as the line. -/
theorem lineAt?_of_between {f : SourceFile} (hsize : f.content.length < UInt32.size) {k : Nat}
    {p : Piece} (hp : (f.newline.pieces f.content)[k]? = some p) {offset : UInt32}
    (hlo : Piece.offset (f.newline.pieces f.content) k ≤ offset.toNat)
    (hnext : ∀ q, (f.newline.pieces f.content)[k + 1]? = some q →
      offset.toNat < Piece.offset (f.newline.pieces f.content) (k + 1)) :
    f.lineAt? offset = some (p.toLine f.newline (f.newline.pieces f.content) k) := by
  have hcut := f.newline.cut_pieces f.content
  have hk : f.lines[k]? = some (p.toLine f.newline (f.newline.pieces f.content) k) := by
    rw [lines, Newline.getElem?_split, hp]
    rfl
  have hindex : lineIndex f.lines offset = k := by
    refine lineIndex_of_between (f.newline.split_starts hsize) hk ?_ ?_
    · rw [UInt32.le_iff_toNat_le, hcut.toNat_start hp hsize]
      exact hlo
    · intro m hm
      obtain ⟨q, hq, rfl⟩ := Newline.exists_piece_of_split hm
      rw [UInt32.lt_iff_toNat_lt, hcut.toNat_start hq hsize]
      exact hnext q hq
  rw [lineAt?, hindex]
  exact hk

end SourceFile
end Linewise
