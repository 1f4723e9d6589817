import Linewise.Proofs.Tool.Agreement
/-!
Runs that take a listing. What such a run prints and how it exits depends on nothing but what is read
from its input; the settings only choose how the diagnostics of a refused text look.
-/
namespace Linewise

namespace Tool

/-- The tool is started in the mode for listings, on this text. -/
structure TakesListing (h : Host) (o : Options) (content : Bytes) : Prop where
  mode : o.mode = .run
  content : h.disk.openFile o.input = .ok content

variable {h h' : Host} {o o' : Options} {content content' : Bytes}

theorem runInput_listing (ht : TakesListing h o content) :
    let ran := runListing o (settings h o) (h.disk.normalize o.input) content
    runInput h o =
      { exit := ran.1
        stdout := ran.2.1
        stderr := o.warnings.flatMap (note "warning") ++ (RunSettings.load h.disk h.env o).2 ++
          ran.2.2
        disk := h.disk } := by
  simp only [runInput, ht.content, ht.mode, if_true]
  rfl

/-- A text that the reader refuses is answered with the reader's diagnostics. -/
theorem runListing_rejected (hrejected : (Listing.read content 0 none).1 = none) (o : Options)
    (s : RunSettings) (name : Bytes) :
    runListing o s name content =
      (1, [], display s [⟨name, content, .universal⟩]
        ((Listing.read content 0 (some {})).2.getD {}).diagnostics) := by
  have hread : (Listing.read content 0 (some {})).1 = none := hrejected
  simp only [runListing, SourceMap.add, List.length_nil]
  rw [show UInt32.ofNat 0 = 0 from rfl, hread]
  rfl

/-- A text that is read is verified as strictly as it asks for, and then it is run. -/
theorem runListing_read {l : Listing} (hread : (Listing.read content 0 none).1 = some l)
    (o : Options) (s : RunSettings) (name : Bytes) :
    runListing o s name content =
      if (l.verify l.strictness).isEmpty then
        (0, Execution.stream l.execute.outputs, if o.dump = .listing then l.dump else [])
      else (1, [], (l.verify l.strictness).flatMap fun p => note "error" p.error.text) := by
  have hbag : (Listing.read content 0 (some {})).1 = some l := hread
  simp only [runListing, SourceMap.add, List.length_nil]
  rw [show UInt32.ofNat 0 = 0 from rfl, hbag]

/-- The run of a text that the reader refuses ends with the reader's diagnostics. -/
theorem runInput_rejected (ht : TakesListing h o content)
    (hrejected : (Listing.read content 0 none).1 = none) :
    runInput h o =
      { exit := 1
        stdout := []
        stderr := o.warnings.flatMap (note "warning") ++ (RunSettings.load h.disk h.env o).2 ++
          display (settings h o) [sourceFile h o content .universal]
            ((Listing.read content 0 (some {})).2.getD {}).diagnostics
        disk := h.disk } := by
  rw [runInput_listing ht, runListing_rejected hrejected]
  rfl

theorem runListing_congr (hread : (Listing.read content 0 none).1 = (Listing.read content' 0 none).1)
    (s s' : RunSettings) (name name' : Bytes) :
    (runListing o s name content).1 = (runListing o' s' name' content').1 ∧
      (runListing o s name content).2.1 = (runListing o' s' name' content').2.1 := by
  cases hread' : (Listing.read content' 0 none).1 with
  | none =>
      rw [runListing_rejected (hread.trans hread'), runListing_rejected hread']
      exact ⟨rfl, rfl⟩
  | some l =>
      rw [runListing_read (hread.trans hread'), runListing_read hread']
      by_cases hverify : (l.verify l.strictness).isEmpty = true
      · rw [if_pos hverify, if_pos hverify]
        exact ⟨rfl, rfl⟩
      · rw [if_neg hverify, if_neg hverify]
        exact ⟨rfl, rfl⟩

/-- Two runs that read the same exit in the same way and print the same. -/
theorem runInput_congr (ht : TakesListing h o content) (ht' : TakesListing h' o' content')
    (hread : (Listing.read content 0 none).1 = (Listing.read content' 0 none).1) :
    (runInput h o).exit = (runInput h' o').exit ∧
      (runInput h o).stdout = (runInput h' o').stdout := by
  rw [runInput_listing ht, runInput_listing ht']
  exact runListing_congr hread _ _ _ _

end Tool
end Linewise
