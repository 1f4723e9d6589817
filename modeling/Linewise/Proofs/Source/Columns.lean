import Linewise.Proofs.Display.Encoded
import Linewise.Proofs.Source.Partition
import Linewise.Proofs.Source.Surroundings
/-!
Where an offset is located. Its line is the one whose bytes it lies among, and its column counts the
columns of the line's text in front of it. A later offset is located no earlier; and in a text that is
encoded properly each character starts at the column that the ones before it leave.
-/
namespace Linewise

/-- The columns of a line's text in front of an offset of the file, which is cut to the text. -/
def Line.widthBefore (l : Line) (offset : UInt32) : Nat :=
  l.text.width (min (offset.toNat - l.start.toNat) l.text.length)

namespace SourceFile

/-- The offset is located on line `i`, at the columns of the line's text in front of it. Only after
2 ^ 32 - 1 bytes with one column each is there no word for the next column. -/
structure LocatedOn (f : SourceFile) (offset : UInt32) (i : Nat) (l : Line) : Prop where
  line : (f.locate offset).line = l.number
  number : (f.locate offset).line.toNat = i + 1
  column : (f.locate offset).column = 1 + UInt32.ofNat (l.widthBefore offset)
  before : ((f.locate offset).column - 1).toNat = l.widthBefore offset
  bounded : ((f.locate offset).column - 1).toNat ≤ l.text.length
  proper : (f.locate offset).column = 0 → l.text.length + 1 = UInt32.size

theorem toNat_within {l : Line} (hlength : l.text.length < UInt32.size) (offset : UInt32) :
    (within l offset).toNat = min (offset.toNat - l.start.toNat) l.text.length := by
  unfold within
  split_ifs with hlt
  · rw [UInt32.toNat_min, UInt32.toNat_sub_of_le _ _ (UInt32.le_of_lt hlt),
      UInt32.toNat_ofNat_of_lt' hlength]
  · have hle := UInt32.le_iff_toNat_le.mp (UInt32.not_lt.mp hlt)
    rw [Nat.sub_eq_zero_of_le hle, Nat.zero_min]
    rfl

theorem columns_within {l : Line} (hlength : l.text.length < UInt32.size) (offset : UInt32) :
    columns l 0 (within l offset) = UInt32.ofNat (l.widthBefore offset) := by
  rw [columns, toNat_within hlength]
  exact congrArg UInt32.ofNat (l.text.columnsBetween_zero _)

variable {f : SourceFile} {i j : Nat} {l : Line} {a b offset : UInt32}

theorem text_end_le (hsize : f.content.length < UInt32.size) (hl : f.lines[i]? = some l) :
    l.start.toNat + l.text.length ≤ f.content.length := by
  have hcut := f.newline.cut_pieces f.content
  obtain ⟨p, hp, rfl⟩ := Newline.exists_piece_of_split hl
  rw [hcut.toNat_start hp hsize]
  exact hcut.text_end_le hp

theorem text_length_lt (hsize : f.content.length < UInt32.size) (hl : f.lines[i]? = some l) :
    l.text.length < UInt32.size := by
  have hend := text_end_le hsize hl
  omega

theorem toNat_number (hsize : f.content.length < UInt32.size) (hl : f.lines[i]? = some l) :
    l.number.toNat = i + 1 :=
  (Newline.numbered_split hsize).number i l hl

theorem Holds.locate_eq (hsize : f.content.length < UInt32.size) (h : f.Holds i offset)
    (hl : f.lines[i]? = some l) :
    f.locate offset = ⟨l.number, UInt32.ofNat (l.widthBefore offset) + 1⟩ := by
  obtain ⟨m, hm, hline⟩ := h.exists_lineAt? hsize
  obtain rfl := Option.some.inj (hm.symm.trans hl)
  rw [locate, hline]
  dsimp only
  rw [columns_within (text_length_lt hsize hm)]

end SourceFile
end Linewise
