import Linewise.Proofs.Listing.Lines
import Linewise.Proofs.Source.Starts
/-!
The lines of a source tile it. Each line is followed by one terminator, which only the last may lack,
and put together they are the source; the numbers and offsets of the lines say where each one lies.
-/
namespace Linewise

namespace Line

/-- The texts of the lines, each with its terminator after it. -/
def closed (lines : List Line) (terminators : List Bytes) : List Bytes :=
  List.zipWith (fun l t => l.text ++ t) lines terminators

/-- With these terminators after them, the lines are the source, and none could be cut further. -/
structure Tile (rule : Newline) (source : Bytes) (lines : List Line) (terminators : List Bytes) :
    Prop where
  length : terminators.length = lines.length
  bytes : (closed lines terminators).flatten = source
  ends : ∀ k l t, lines[k]? = some l → terminators[k]? = some t →
    rule.Ends t ((closed lines terminators).drop (k + 1)).flatten ∨
      (t = [] ∧ k + 1 = lines.length ∧ l.text ≠ [])
  free : ∀ l ∈ lines, rule.Free l.text

/-- Every line tells its number, the number of bytes before it, and whether a line feed in it was
passed over. -/
structure Numbered (rule : Newline) (lines : List Line) (terminators : List Bytes) : Prop where
  number : ∀ k l, lines[k]? = some l → l.number.toNat = k + 1
  start : ∀ k l, lines[k]? = some l →
    l.start.toNat = ((closed lines terminators).take k).flatten.length
  first : ∀ l ∈ lines.head?, l.start = 0
  increasing : lines.Pairwise fun l m => l.start < m.start
  bareLf : ∀ l ∈ lines, l.bareLf = true ↔ rule = .crlf ∧ Byte.lf ∈ l.text

end Line

namespace Newline

variable {rule : Newline} {s : Bytes} {ps : List Piece} {k : Nat} {p : Piece}

/-- A piece ends as the rule has it in front of what follows, unless it is the last one. -/
theorem Cut.ends (h : rule.Cut s ps) (hp : ps[k]? = some p) :
    rule.Ends p.terminator ((ps.drop (k + 1)).flatMap (·.bytes)) ∨
      (p.terminator = [] ∧ k + 1 = ps.length ∧ p.text ≠ []) := by
  induction h generalizing k with
  | nil => cases hp
  | last hne _ =>
      cases k with
      | zero =>
          obtain rfl := Option.some.inj hp
          exact .inr ⟨rfl, rfl, hne⟩
      | succ k => cases hp
  | @line text t rest ps _ hends hrest ih =>
      cases k with
      | zero =>
          obtain rfl := Option.some.inj hp
          rw [List.drop_succ_cons, List.drop_zero, hrest.bytes.1]
          exact .inl hends
      | succ k =>
          rw [List.drop_succ_cons, List.length_cons, Nat.add_right_cancel_iff]
          exact ih hp

variable (rule) (s)

theorem length_split : (rule.split s).length = (rule.pieces s).length :=
  rule.length_enumerate 0 0 _

theorem split_eq_nil_iff : rule.split s = [] ↔ s = [] := by
  rw [← List.length_eq_zero_iff, length_split, List.length_eq_zero_iff]
  constructor
  · intro hnil
    rw [← (rule.pieces_bytes s).1, hnil]
    rfl
  · rintro rfl
    exact rule.pieces_nil

/-- The lines of a source with the terminators that its pieces have. -/
theorem closed_split :
    Line.closed (rule.split s) ((rule.pieces s).map (·.terminator)) =
      (rule.pieces s).map (·.bytes) := by
  have htexts : (rule.split s).map (·.text) = (rule.pieces s).map (·.text) :=
    enumerate_text rule 0 0 _
  have hclosed (ls : List Line) (ts : List Bytes) :
      Line.closed ls ts = List.zipWith (· ++ ·) (ls.map (·.text)) ts := by
    rw [List.zipWith_map_left]
    rfl
  rw [hclosed, htexts, List.zipWith_map, List.zipWith_self]
  rfl

variable {rule} {s}

theorem tile_split (rule : Newline) (s : Bytes) :
    Line.Tile rule s (rule.split s) ((rule.pieces s).map (·.terminator)) := by
  have hcut := rule.cut_pieces s
  refine { length := ?_, bytes := ?_, ends := ?_, free := ?_ }
  · rw [List.length_map, length_split]
  · rw [closed_split, ← List.flatMap_def]
    exact hcut.bytes.1
  · intro k l t hl ht
    obtain ⟨p, hp, rfl⟩ := exists_piece_of_split hl
    rw [List.getElem?_map, hp] at ht
    obtain rfl := Option.some.inj ht
    rw [closed_split, ← List.map_drop, ← List.flatMap_def, length_split]
    exact hcut.ends hp
  · intro l hl
    obtain ⟨k, p, hp, rfl⟩ := exists_piece_of_mem_split hl
    exact hcut.free p (List.mem_of_getElem? hp)

theorem numbered_split (hsize : s.length < UInt32.size) :
    Line.Numbered rule (rule.split s) ((rule.pieces s).map (·.terminator)) := by
  have hcut := rule.cut_pieces s
  refine
    { number := ?_, start := ?_, first := ?_, increasing := rule.split_starts hsize, bareLf := ?_ }
  · intro k l hl
    obtain ⟨p, hp, rfl⟩ := exists_piece_of_split hl
    exact hcut.toNat_number hp hsize
  · intro k l hl
    obtain ⟨p, hp, rfl⟩ := exists_piece_of_split hl
    rw [hcut.toNat_start hp hsize, closed_split, ← List.map_take, ← List.flatMap_def]
    rfl
  · intro l hl
    rw [List.head?_eq_getElem?] at hl
    obtain ⟨p, hp, rfl⟩ := exists_piece_of_split hl
    rfl
  · intro l hl
    obtain ⟨k, p, hp, rfl⟩ := exists_piece_of_mem_split hl
    simp [Piece.toLine]

/-- The lines tile every source, and there is none just for the empty one. -/
theorem split_partition (rule : Newline) (source : Bytes) (hsize : source.length < UInt32.size) :
    (∃ terminators, Line.Tile rule source (rule.split source) terminators ∧
      Line.Numbered rule (rule.split source) terminators) ∧
      (rule.split source = [] ↔ source = []) :=
  ⟨⟨_, tile_split rule source, numbered_split hsize⟩, split_eq_nil_iff rule source⟩

/-- Two carriage returns of which only the second is half of a pair, an empty line, and a last line
without a terminator. -/
theorem split_partition_of_mixed_terminators :
    let source := utf8 "a\r\r\n\nb"
    let lines : List Line := [⟨utf8 "a", 1, 0, false⟩, ⟨[], 2, 2, false⟩, ⟨[], 3, 4, false⟩,
      ⟨utf8 "b", 4, 5, false⟩]
    source.length < UInt32.size ∧ Newline.universal.split source = lines ∧
      ∃ terminators, Line.Tile .universal source lines terminators ∧
        Line.Numbered .universal lines terminators := by
  intro source lines
  have hsize : source.length < UInt32.size := by decide
  have hlines : Newline.universal.split source = lines := by decide +kernel
  exact ⟨hsize, hlines, hlines ▸ (split_partition .universal source hsize).1⟩

end Newline
end Linewise
