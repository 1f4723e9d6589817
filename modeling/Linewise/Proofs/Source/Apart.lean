import Linewise.Proofs.Source.Cut
import Linewise.Proofs.Source.Statements
/-!
Lines that are already apart. Their statements are numbered and placed by running sums, as if each
line had one byte after it. Put together with line feeds they are a source, in which the splitter
counts and measures on its own and comes to the same statements.
-/
namespace Linewise

/-- The source of lines that are apart: a line feed after each of them. -/
def Bytes.joined (lines : List Bytes) : Bytes := lines.flatMap (· ++ [Byte.lf])

namespace Newline

/-- Lines without a line end in them are cut where they were put together. -/
theorem cut_joined {rule : Newline} (hrule : rule ≠ .crlf) {lines : List Bytes}
    (h : ∀ line ∈ lines, rule.Free line) :
    rule.Cut (Bytes.joined lines) (lines.map fun line => ⟨line, [Byte.lf]⟩) := by
  induction lines with
  | nil => exact .nil
  | cons line lines ih =>
      rw [List.forall_mem_cons] at h
      rw [Bytes.joined, List.flatMap_cons, List.append_assoc]
      exact .line h.1 (.feed hrule) (ih h.2)

end Newline

namespace Program

/-- The running sums are the numbers and offsets of pieces that end with one byte each. -/
theorem ofLinesFrom_eq (rule : Newline) (index offset : Nat) (lines : List Bytes) :
    ofLinesFrom (UInt32.ofNat (index + 1)) (UInt32.ofNat offset) lines =
      (Line.enumerate rule index offset (lines.map fun line => ⟨line, [Byte.lf]⟩)).map
        (Line.statement 0) := by
  induction lines generalizing index offset with
  | nil => rfl
  | cons line lines ih =>
      have hnumber : UInt32.ofNat (index + 1) + 1 = UInt32.ofNat (index + 1 + 1) :=
        (UInt32.ofNat_add _ _).symm
      have hoffset : UInt32.ofNat offset + UInt32.ofNat line.length + 1 =
          UInt32.ofNat (offset + (line ++ [Byte.lf]).length) := by
        rw [List.length_append, ← Nat.add_assoc, UInt32.ofNat_add, UInt32.ofNat_add]
        rfl
      rw [ofLinesFrom, List.map_cons, Line.enumerate, List.map_cons, hnumber, hoffset, ih]
      rfl

theorem ofLines_eq_ofSource {rule : Newline} (hrule : rule ≠ .crlf) {lines : List Bytes}
    (h : ∀ line ∈ lines, rule.Free line) : ofLines lines = ofSource (Bytes.joined lines) 0 rule := by
  have hpieces := (Newline.cut_joined hrule h).eq_pieces
  rw [ofSource, Newline.split, ← hpieces]
  exact ofLinesFrom_eq rule 0 0 lines

/-- Lines without a line feed make the program of their source under the rule of line feeds, and
under the universal rule as well if they have no carriage return; and if that program is refused,
both are, for the same line. -/
theorem ofLines_agrees (lines : List Bytes) (hlf : ∀ line ∈ lines, Byte.lf ∉ line) (rule : Newline)
    (hrule : rule = .lf ∨ (rule = .universal ∧ ∀ line ∈ lines, Byte.cr ∉ line))
    (bag : Option Bag) :
    ofLines lines = (Program.read (Bytes.joined lines) 0 rule bag).1 ∧
      ofValidLines lines = (Program.readValid (Bytes.joined lines) 0 rule bag).1 := by
  have hprogram : ofLines lines = ofSource (Bytes.joined lines) 0 rule := by
    rcases hrule with rfl | ⟨rfl, hcr⟩
    · exact ofLines_eq_ofSource (by decide) hlf
    · exact ofLines_eq_ofSource (by decide) fun line hline => ⟨hcr line hline, hlf line hline⟩
  refine ⟨hprogram, ?_⟩
  rw [ofValidLines, hprogram]
  rfl

/-- An empty line before a reserved one, and an empty line at the end. -/
theorem ofLines_agrees_on_empty_lines :
    let lines := [utf8 "ab", [], utf8 "t", []]
    (∀ line ∈ lines, Byte.lf ∉ line) ∧ (∀ line ∈ lines, Byte.cr ∉ line) ∧
      ofLines lines = (Program.read (utf8 "ab\n\nt\n\n") 0 .universal none).1 ∧
      (Program.readValid (utf8 "ab\n\nt\n\n") 0 .universal none).1 = .error ⟨3, ⟨0, 4, 5⟩⟩ := by
  intro lines
  have hlf : ∀ line ∈ lines, Byte.lf ∉ line := by decide
  have hcr : ∀ line ∈ lines, Byte.cr ∉ line := by decide
  have hvalid : ofValidLines lines = .error ⟨3, ⟨0, 4, 5⟩⟩ := by decide
  obtain ⟨hprogram, hread⟩ := ofLines_agrees lines hlf .universal (.inr ⟨rfl, hcr⟩) none
  exact ⟨hlf, hcr, hprogram, hread.symm.trans hvalid⟩

end Program
end Linewise
