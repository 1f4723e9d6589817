import Linewise.Proofs.Listing.Placement
import Linewise.Proofs.Listing.Reading
/-!
Which texts are listings. The reader takes a text exactly if the grammar does and gives it the only
operations that it spells; a listing that was read has its one halt at the end and is well-formed.
-/
namespace Linewise.Listing

theorem verify_any_of_halt_last {l : Listing} {front : List Instr} {i : Instr}
    (hl : l.instrs = front ++ [i]) (h : ∀ j ∈ front, j.op ≠ .halt) : l.verify .any = [] := by
  have hplaced : ∀ j ∈ front, j.op.Placed .any := fun j hj => Op.placed_any (h j hj)
  rw [verify, hl, misplacedFrom_append hplaced, misplacedFrom]
  cases i.op with
  | append text | printLiteral text | print | halt => rfl

/-- A text is read exactly if it is in the grammar. The listing has the operations that the text
spells, and the halt is the last of them and the only one. -/
theorem read_exact (text : Bytes) (file : UInt32) (bag : Option Bag) :
    ((Listing.read text file bag).1.isSome ↔ ∃ ops, Spells text ops) ∧
      ∀ l, (Listing.read text file bag).1 = some l →
        (∀ ops, Spells text ops ↔ l.instrs = ops.map (⟨·, 0⟩)) ∧
        (∃ front, l.instrs = front ++ [⟨.halt, 0⟩] ∧ ∀ i ∈ front, i.op ≠ .halt) ∧
        l.verify .any = [] := by
  have hread : ∀ ops, Spells text ops → ∃ l, (Listing.read text file bag).1 = some l ∧
      l.instrs = ops.map (⟨·, 0⟩) := by
    rintro _ ⟨os, hlines, hhalt, rfl⟩
    rw [read_of_spelled hlines hhalt]
    exact ⟨_, rfl, rfl⟩
  constructor
  · constructor
    · intro h
      obtain ⟨l, hl⟩ := Option.isSome_iff_exists.mp h
      exact ⟨_, (instrs_of_read hl).1⟩
    · rintro ⟨ops, h⟩
      obtain ⟨l, hl, _⟩ := hread ops h
      exact Option.isSome_iff_exists.mpr ⟨l, hl⟩
  · intro l hl
    obtain ⟨hspells, _, front, hlast, hfree⟩ := instrs_of_read hl
    refine ⟨fun ops => ⟨?_, ?_⟩, ⟨front, hlast, hfree⟩, verify_any_of_halt_last hlast hfree⟩
    · intro hops
      obtain ⟨l', hl', hinstrs⟩ := hread ops hops
      obtain rfl := Option.some.inj (hl.symm.trans hl')
      exact hinstrs
    · intro hinstrs
      rw [hinstrs, List.map_map] at hspells
      exact List.map_id ops ▸ hspells

theorem read_exact_of_commented_lines :
    ∃ l, (Listing.read (utf8 "; text\n append\"a;\\n\" ; rest\nprint\n\nhalt") 0 none).1 = some l ∧
      l.instrs = [⟨.append (utf8 "a;\n"), 0⟩, ⟨.print, 0⟩, ⟨.halt, 0⟩] ∧ l.verify .any = [] := by
  have hnone : Blanks [] := by decide
  have hspace : Blanks (utf8 " ") := by decide
  have hliteral : Literal.Quoted (utf8 "\"a;\\n\"") (utf8 "a;\n") := Literal.write_quoted _
  have hlines : Spells (utf8 "; text\n append\"a;\\n\" ; rest\nprint\n\nhalt")
      [.append (utf8 "a;\n"), .print, .halt] := by
    refine ⟨[none, some (.append (utf8 "a;\n")), some .print, none, some .halt], ?_,
      ⟨by decide, by decide⟩, rfl⟩
    exact .cons (.idle (.comment hnone))
      (.cons (.instruction hspace (.append hnone hliteral) (.comment hspace))
      (.cons (.instruction hnone .print (.blanks hnone))
      (.cons (.idle (.blanks hnone))
      (.cons (.instruction hnone .halt (.blanks hnone)) .nil))))
  obtain ⟨l, hl⟩ := Option.isSome_iff_exists.mp ((read_exact _ 0 none).1.mpr ⟨_, hlines⟩)
  obtain ⟨hops, _, hverify⟩ := (read_exact _ 0 none).2 l hl
  exact ⟨l, hl, (hops _).mp hlines, hverify⟩

end Linewise.Listing
