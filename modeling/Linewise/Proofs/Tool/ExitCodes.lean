import Linewise.Proofs.Listing.Acceptance
import Linewise.Proofs.Listing.Printed
import Linewise.Proofs.Listing.Reports
import Linewise.Proofs.Tool.Listings
/-!
What the exit code of a listing's run stands for. A run that exits with zero has printed all that the
text tells it to print and has said nothing; any other run has printed nothing and has said why. The
halt of a listing that was read is its last instruction, so a verification can only fail because the
listing declares itself optimized and is not.
-/
namespace Linewise

/-- The operation does not touch the text that a listing builds up. -/
def Op.Stateless (op : Op) : Prop := op ≠ .print ∧ ∀ text, op ≠ .append text

theorem Op.placed_optimized_iff {op : Op} (h : op ≠ .halt) :
    op.Placed .optimized ↔ op.Stateless := by
  cases op with
  | append text => exact iff_of_false (fun hplaced => nomatch hplaced true) fun hs => hs.2 text rfl
  | print => exact iff_of_false (fun hplaced => nomatch hplaced true) fun hs => hs.1 rfl
  | printLiteral text =>
      exact iff_of_true (placed_printLiteral _ text) ⟨nofun, fun _ => nofun⟩
  | halt => exact absurd rfl h

namespace Listing

variable {l : Listing} {front : List Instr} {i : Instr}

/-- Where the only halt comes last, nothing else depends on its position. -/
theorem verify_iff_placed (hl : l.instrs = front ++ [i]) (hi : i.op = .halt)
    (hfront : ∀ j ∈ front, j.op ≠ .halt) (strictness : Strictness) :
    l.verify strictness = [] ↔ ∀ j ∈ front, j.op.Placed strictness := by
  constructor
  · intro hverify
    rw [← live_of_halt hl hi hfront]
    exact placed_of_misplacedFrom hverify
  · intro hplaced
    exact verify_of_placed_halt hl hi hplaced

theorem verify_strictness_iff (hl : l.instrs = front ++ [i]) (hi : i.op = .halt)
    (hfront : ∀ j ∈ front, j.op ≠ .halt) :
    l.verify l.strictness = [] ↔ (l.optimized = true → ∀ j ∈ l.instrs, j.op.Stateless) := by
  have hhalt : i.op.Stateless := by simp [Op.Stateless, hi]
  rw [verify_iff_placed hl hi hfront, hl, List.forall_mem_append, List.forall_mem_singleton,
    and_iff_left hhalt, strictness]
  cases l.optimized with
  | false =>
      exact iff_of_true (fun j hj => Op.placed_any (hfront j hj)) fun h => absurd h (by decide)
  | true =>
      rw [if_pos rfl, imp_iff_right rfl]
      exact forall₂_congr fun j hj => Op.placed_optimized_iff (hfront j hj)

/-- Something is said about every text that is refused. -/
theorem reported_of_rejected {text : Bytes} {file : UInt32}
    (h : (Listing.read text file none).1 = none) :
    ((Listing.read text file (some {})).2.getD {}).diagnostics ≠ [] := by
  have hnothing : Reader.Traces file {} [] := Reader.traces_nil
  have hok := (hnothing.foldl (Newline.lf.split text)).ok_finish
  simpa [Listing.read, Reader.listing?, Bag.report, hok] using h

end Listing

namespace Tool

/-- What is shown of some diagnostics is not empty. -/
theorem display_ne_nil (s : RunSettings) (m : SourceMap) {ds : List Diagnostic} (h : ds ≠ []) :
    display s m ds ≠ [] := by
  obtain ⟨d, ds, rfl⟩ := List.exists_cons_of_ne_nil h
  have hfeed : utf8 "\n" ≠ [] := by decide
  simp [display, hfeed]

/-- The run of a listing ended well. It printed what all operations of the text print, up to its
halt, and only a dump was asked to say anything. -/
structure Complete (o : Options) (content : Bytes) (ran : UInt8 × Bytes × Bytes) : Prop where
  exit : ran.1 = 0
  stdout : ∃ ops, Listing.Spells content ops ∧ ran.2.1 = Execution.stream (Op.printed ops)
  stderr : o.dump ≠ .listing → ran.2.2 = []

/-- The run of a listing failed. It printed nothing, and it said something. -/
structure Refused (ran : UInt8 × Bytes × Bytes) : Prop where
  exit : ran.1 = 1
  stdout : ran.2.1 = []
  stderr : ran.2.2 ≠ []

variable {content : Bytes} {l : Listing}

theorem complete_of_verify (hread : (Listing.read content 0 none).1 = some l)
    (hverify : l.verify l.strictness = []) (o : Options) (s : RunSettings) (name : Bytes) :
    Complete o content (runListing o s name content) := by
  obtain ⟨hspells, _, front, hlast, hfront⟩ := Listing.instrs_of_read hread
  have hlive := Listing.live_of_halt hlast rfl hfront
  -- The halt at the end of the operations prints nothing.
  have hprinted : Op.printed (l.instrs.map (·.op)) = Op.printed (l.live.map (·.op)) := by
    rw [hlast, hlive, List.map_append, List.map_singleton, Op.printed_concat]
    exact List.append_nil _
  have hempty : (l.verify l.strictness).isEmpty = true := List.isEmpty_iff.mpr hverify
  rw [runListing_read hread, if_pos hempty]
  refine ⟨rfl, ⟨_, hspells, ?_⟩, fun hdump => if_neg hdump⟩
  rw [hprinted, ← Listing.outputs_execute]

theorem refused_of_verify (hread : (Listing.read content 0 none).1 = some l)
    (hverify : l.verify l.strictness ≠ []) (o : Options) (s : RunSettings) (name : Bytes) :
    Refused (runListing o s name content) := by
  obtain ⟨p, ps, hps⟩ := List.exists_cons_of_ne_nil hverify
  have hnote : note "error" p.error.text ≠ [] := by simp [note, utf8]
  rw [runListing_read hread, hps, if_neg (by simp)]
  refine ⟨rfl, rfl, ?_⟩
  simp [hnote]

theorem refused_of_rejected (hrejected : (Listing.read content 0 none).1 = none) (o : Options)
    (s : RunSettings) (name : Bytes) : Refused (runListing o s name content) := by
  rw [runListing_rejected hrejected]
  exact ⟨rfl, rfl, display_ne_nil s _ (Listing.reported_of_rejected hrejected)⟩

/-- The run of a listing is all or nothing, and it is all exactly if the text is read and, where it
declares itself optimized, neither appends nor prints what was appended. -/
theorem runListing_all_or_nothing (o : Options) (s : RunSettings) (name content : Bytes) :
    let ran := runListing o s name content
    (Complete o content ran ∨ Refused ran) ∧
      (ran.1 = 0 ↔ ∃ l, (Listing.read content 0 none).1 = some l ∧
        (l.optimized = true → ∀ i ∈ l.instrs, i.op.Stateless)) := by
  intro ran
  cases hread : (Listing.read content 0 none).1 with
  | none =>
      have hran := refused_of_rejected hread o s name
      refine ⟨.inr hran, ?_⟩
      rw [hran.exit]
      exact iff_of_false (by decide) nofun
  | some l =>
      obtain ⟨_, _, front, hlast, hfront⟩ := Listing.instrs_of_read hread
      have hstateless := Listing.verify_strictness_iff hlast rfl hfront
      by_cases hverify : l.verify l.strictness = []
      · have hran := complete_of_verify hread hverify o s name
        exact ⟨.inl hran, iff_of_true hran.exit ⟨l, rfl, hstateless.mp hverify⟩⟩
      · have hran := refused_of_verify hread hverify o s name
        refine ⟨.inr hran, ?_⟩
        rw [hran.exit]
        refine iff_of_false (by decide) ?_
        rintro ⟨_, ⟨⟩, hall⟩
        exact hverify (hstateless.mpr hall)

end Tool
end Linewise
