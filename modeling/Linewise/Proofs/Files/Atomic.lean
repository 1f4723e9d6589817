import Linewise.Proofs.Files.Persist
/-!
The file sink keeps an artifact whole or not at all. Whatever stops it, the disk it leaves is the
one it found with some directories of the target made; and where nothing stops it the target is a
file with the artifact and all else is as it was.
-/
namespace Linewise.Disk

section
variable {tag target bytes : Bytes} {d : Disk}

/-- The temporary file is not there yet. A path is seen up to its first NUL only, so if the target
has one the temporary file is the target itself. -/
def TemporaryFree (tag target : Bytes) (d : Disk) : Prop :=
  Byte.nul ∉ target → d.tree.find? (d.destination (temporaryPath tag target)) = none

/-- The artifact stands in the temporary file, and the directories of the target are made. -/
abbrev Staged (tag target bytes : Bytes) (d written : Disk) (place : Place) (name : Bytes) : Prop :=
  (d.prepared target).Written (temporaryPath tag target) bytes written place name

variable {written : Disk} {place : Place} {name : Bytes}

theorem Staged.current_eq (h : Staged tag target bytes d written place name) :
    written.current = d.current :=
  h.current.trans (prepared_spared d target).current

theorem Staged.destination_eq (h : Staged tag target bytes d written place name) :
    d.destination (temporaryPath tag target) = place ++ [name] := by
  rw [← h.leads.destination, destination_congr h.current_eq]

/-- Without a NUL in the target nothing stood where the temporary file stands, not even a directory
that was made on the way. -/
theorem Staged.none_before (h : Staged tag target bytes d written place name)
    (hfree : TemporaryFree tag target d) (hnul : Byte.nul ∉ target) :
    (d.prepared target).tree.find? (place ++ [name]) = none := by
  have hbefore := hfree hnul
  rw [h.destination_eq] at hbefore
  rcases (prepared_spared d target).tree (place ++ [name]) with heq | ⟨_, hmade, _⟩
  · rw [heq, hbefore]
  · exact absurd hmade h.free

theorem Staged.find?_erase (h : Staged tag target bytes d written place name)
    (hfree : TemporaryFree tag target d) {q : Place}
    (hnul : q = place ++ [name] → Byte.nul ∉ target) :
    (written.tree.erase (place ++ [name])).find? q = (d.prepared target).tree.find? q := by
  rw [FileTree.find?_erase _ _ (by simp)]
  split
  · rename_i heq
    rw [heq, h.none_before hfree (hnul heq)]
  · rename_i hne
    exact h.other q hne

section
variable (h : Staged tag target bytes d written place name) {toPlace : Place} {toName : Bytes}
  (hto : written.Leads target toPlace toName)
include h hto

end

end

end Linewise.Disk
