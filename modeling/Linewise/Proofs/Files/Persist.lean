import Linewise.Files.Sink
import Linewise.Proofs.Files.Destination
/-!
How far the file sink gets, and what it leaves. Up to the writing of the temporary file all that
happens is that directories of the target are made; what is kept in the end can be read back.
-/
namespace Linewise.Disk

theorem makeDirectory_ok {d made : Disk} {path : Bytes} (h : d.makeDirectory path = .ok made) :
    d.destination path ≠ [] ∧ d.tree.find? (d.destination path) = none ∧
      made = { d with tree := d.tree.put (d.destination path) .directory } := by
  unfold makeDirectory at h
  split at h
  · cases h
  · rename_i place name hslot
    split_ifs at h with hdots hlong htaken
    have hdestination := slot_destination hslot (by simpa using hdots)
    rw [hdestination] at h htaken
    refine ⟨by rw [← hdestination]; simp, by simpa using htaken, ?_⟩
    exact (Except.ok.inj h).symm

/-- All that happened to a disk is that directories were made at some of these places. -/
structure Spared (places : List Place) (d d' : Disk) : Prop where
  current : d'.current = d.current
  tree : ∀ place, d'.tree.find? place = d.tree.find? place ∨
    d.tree.find? place = none ∧ d'.tree.find? place = some .directory ∧ place ∈ places

section
variable {places : List Place} {d d' d'' : Disk}

theorem Spared.refl (places : List Place) (d : Disk) : Spared places d d :=
  ⟨rfl, fun _ => .inl rfl⟩

theorem Spared.trans (h : Spared places d d') (h' : Spared places d' d'') :
    Spared places d d'' := by
  refine ⟨h'.current.trans h.current, ?_⟩
  intro place
  rcases h'.tree place with heq | ⟨hnone, hmade, hmem⟩
  · rw [heq]
    exact h.tree place
  · rcases h.tree place with heq | ⟨_, hdirectory, _⟩
    · exact .inr ⟨heq ▸ hnone, hmade, hmem⟩
    · rw [hnone] at hdirectory
      cases hdirectory

theorem makeDirectory_spared {path : Bytes} (h : d.makeDirectory path = .ok d')
    (hmem : d.destination path ∈ places) : Spared places d d' := by
  obtain ⟨hne, hnone, rfl⟩ := makeDirectory_ok h
  refine ⟨rfl, ?_⟩
  intro place
  rw [FileTree.find?_put _ _ _ hne]
  split
  · rename_i heq
    rw [heq]
    exact .inr ⟨hnone, rfl, hmem⟩
  · exact .inl rfl

theorem makeEach_spared {paths : List Bytes} (hmem : ∀ path ∈ paths, d.destination path ∈ places) :
    Spared places d (d.makeEach paths).1 := by
  induction paths generalizing d with
  | nil => exact .refl places d
  | cons path paths ih =>
      rw [List.forall_mem_cons] at hmem
      unfold makeEach
      split
      · rename_i made hmade
        have hspared := makeDirectory_spared hmade hmem.1
        refine hspared.trans (ih ?_)
        intro other hother
        rw [destination_congr hspared.current]
        exact hmem.2 other hother
      · split_ifs
        · exact ih hmem.2
        · exact .refl places d

theorem mem_of_mem_missing {paths found : List Bytes} (h : d.missing paths = .ok found) :
    ∀ path ∈ found, path ∈ paths := by
  induction paths generalizing found with
  | nil =>
      cases h
      simp
  | cons first paths ih =>
      have habove (last : List Bytes) (hlast : last ⊆ [first])
          (hmap : (d.missing paths).map (· ++ last) = .ok found) :
          ∀ path ∈ found, path ∈ first :: paths := by
        cases hmissing : d.missing paths with
        | error e =>
            rw [hmissing] at hmap
            cases hmap
        | ok above =>
            rw [hmissing] at hmap
            obtain rfl := Except.ok.inj hmap
            intro path hpath
            rcases List.mem_append.mp hpath with hold | hnew
            · exact List.mem_cons_of_mem _ (ih hmissing path hold)
            · rw [List.mem_singleton.mp (hlast hnew)]
              exact List.mem_cons_self
      have hlast : (if Path.isDots (Path.lastName first) then [] else [first]) ⊆ [first] := by
        split
        · exact List.nil_subset _
        · exact List.Subset.refl _
      unfold missing at h
      split at h
      · cases h
        simp
      · cases h
      · exact habove _ hlast h
      · exact habove _ hlast h
      · cases h

theorem makeDirectories_spared {path : Bytes}
    (hmem : ∀ above ∈ Path.ancestors path, d.destination above ∈ places) :
    Spared places d (d.makeDirectories path).1 := by
  unfold makeDirectories
  split
  · exact .refl places d
  · rename_i paths hpaths
    split_ifs
    · exact .refl places d
    · exact makeEach_spared fun path hpath => hmem path (mem_of_mem_missing hpaths path hpath)

end

/-- The disk on which the directories of a target have been made, as far as they could be. -/
def prepared (d : Disk) (target : Bytes) : Disk :=
  if (Path.parent target).isEmpty then d else (d.makeDirectories (Path.parent target)).1

theorem prepared_spared (d : Disk) (target : Bytes) :
    Spared (d.along target) d (d.prepared target) := by
  rw [prepared]
  split_ifs
  · exact .refl _ d
  · exact makeDirectories_spared fun above habove => destination_mem_along habove

/-- How far persisting gets, and what it answers and leaves there. -/
inductive Outcome (tag target bytes : Bytes) (d : Disk) : Reply × Disk → Prop
  | refused (reason : Bytes) : Outcome tag target bytes d (.refused (some ⟨target, reason⟩), d)
  | unwritten (reason : Bytes) :
      Outcome tag target bytes d (.refused (some ⟨target, reason⟩), d.prepared target)
  | unmoved {written : Disk} {e : FileError} (reason : Bytes)
      (hwrite : (d.prepared target).write (temporaryPath tag target) bytes = .ok written)
      (hmove : written.move (temporaryPath tag target) target = .error e) :
      Outcome tag target bytes d
        (.refused (some ⟨target, reason⟩), written.remove (temporaryPath tag target))
  | moved {written moved : Disk}
      (hwrite : (d.prepared target).write (temporaryPath tag target) bytes = .ok written)
      (hmove : written.move (temporaryPath tag target) target = .ok moved) :
      Outcome tag target bytes d (.kept, moved)

end Linewise.Disk
