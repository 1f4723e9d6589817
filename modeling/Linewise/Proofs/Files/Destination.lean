import Linewise.Proofs.Files.Slots
import Linewise.Proofs.Files.Spelling
import Mathlib.Data.List.Infix
/-!
Where a path leads. A tree without links puts nothing else behind a name than the name says, so the
place that a path leads to can be told from the path and the current directory alone; the tree only
decides whether the walk gets there.
-/
namespace Linewise.Disk

/-- The place that a name leads to. -/
def follow (place : Place) (name : Bytes) : Place :=
  if name = utf8 "." then place
  else if name = utf8 ".." then place.dropLast
  else place ++ [name]

/-- The place that a path leads to, whether or not anything is there. -/
def destination (d : Disk) (path : Bytes) : Place :=
  (Path.names (systemPath path)).foldl follow (d.origin path)

/-- The places that a path leads through, up to the one that it leads to. -/
def along (d : Disk) (path : Bytes) : List Place :=
  (Path.names (systemPath path)).inits.map (·.foldl follow (d.origin path))

theorem foldl_of_walk {t : FileTree} {place place' : Place} {names : List Bytes}
    (h : walk t place names = .ok place') : names.foldl follow place = place' := by
  induction names generalizing place with
  | nil => exact Except.ok.inj h
  | cons name rest ih =>
      have hdirectory := directory_of_walk (by simp) h
      simp only [walk, hdirectory] at h
      rw [List.foldl_cons, follow]
      split_ifs at h ⊢
      · exact ih h
      · exact ih h
      · exact ih h

theorem isAbsolute_systemPath (path : Bytes) :
    Path.isAbsolute (systemPath path) = Path.isAbsolute path := by
  cases path with
  | nil => rfl
  | cons b rest =>
      by_cases hb : b = Byte.nul
      · subst hb
        rfl
      · simp [systemPath, Path.isAbsolute, hb]

theorem origin_systemPath (d : Disk) (path : Bytes) :
    d.origin (systemPath path) = d.origin path := by
  rw [origin, isAbsolute_systemPath, origin]

theorem systemPath_of_nul_not_mem {path : Bytes} (h : Byte.nul ∉ path) :
    systemPath path = path := by
  rw [systemPath, List.takeWhile_eq_self_iff]
  intro b hb
  rw [bne_iff_ne]
  exact fun heq => h (heq ▸ hb)

theorem systemPath_append_of_nul_not_mem {front : Bytes} (h : Byte.nul ∉ front) (back : Bytes) :
    systemPath (front ++ back) = front ++ systemPath back := by
  have hself : front.takeWhile (· != Byte.nul) = front := systemPath_of_nul_not_mem h
  rw [systemPath, List.takeWhile_append, hself, if_pos rfl, systemPath]

theorem systemPath_append_of_nul_mem {front : Bytes} (h : Byte.nul ∈ front) (back : Bytes) :
    systemPath (front ++ back) = systemPath front := by
  obtain ⟨seen, unseen, rfl, hseen⟩ := List.eq_append_cons_of_mem h
  rw [List.append_assoc, systemPath_append_of_nul_not_mem hseen,
    systemPath_append_of_nul_not_mem hseen]
  rfl

section
variable {d : Disk} {path : Bytes} {place : Place} {name : Bytes}

theorem follow_of_not_dots (place : Place) (hdots : Path.isDots name = false) :
    follow place name = place ++ [name] := by
  simp only [Path.isDots, Bool.or_eq_false_iff, beq_eq_false_iff_ne] at hdots
  rw [follow, if_neg hdots.1, if_neg hdots.2]

theorem slot_destination (h : d.slot path = .ok (place, name))
    (hdots : Path.isDots name = false) : place ++ [name] = d.destination path := by
  obtain ⟨_, _, hwalk, _⟩ := slot_eq_ok_iff.mp h
  rw [origin_systemPath, walk_dot_iff] at hwalk
  rw [destination, names_of_slot h hdots, List.foldl_append, foldl_of_walk hwalk.1, List.foldl_cons,
    List.foldl_nil, follow_of_not_dots place hdots]

theorem Leads.destination (h : d.Leads path place name) : d.destination path = place ++ [name] :=
  (slot_destination h.slot h.dots).symm

end

theorem names_of_isParent {above p : Bytes} (h : Path.IsParent above p) :
    Path.names (systemPath above) <+: Path.names (systemPath p) := by
  cases h with
  | nameless k => exact List.prefix_rfl
  | single hne hname =>
      have hnil : Path.names (systemPath []) = [] := Path.names_nil
      rw [hnil]
      exact List.nil_prefix
  | ofRoot k hne hname =>
      have hnil : Path.names (systemPath [Byte.slash]) = [] := Path.names_slashes 1
      rw [hnil]
      exact List.nil_prefix
  | @below _ hne hend k name hname =>
      rw [List.append_assoc]
      by_cases hnul : Byte.nul ∈ above
      · rw [systemPath_append_of_nul_mem hnul]
      · have hslash : systemPath (Path.slashes (k + 1) ++ name) =
            Byte.slash :: systemPath (Path.slashes k ++ name) := rfl
        rw [systemPath_append_of_nul_not_mem hnul, systemPath_of_nul_not_mem hnul, hslash,
          Path.names_append]
        exact List.prefix_append _ _

/-- What is above a path lies on the way to where the path leads. -/
theorem destination_mem_along {d : Disk} {path above : Bytes}
    (h : above ∈ Path.ancestors (Path.parent path)) : d.destination above ∈ d.along path := by
  have hparent := Path.isParent_parent path
  have hall := Path.ancestors_induction
    (motive := fun q => Path.names (systemPath q) <+: Path.names (systemPath path) ∧
      Path.isAbsolute q = Path.isAbsolute path)
    ⟨names_of_isParent hparent, hparent.isAbsolute_eq⟩
    (fun _ _ hq ih => ⟨(names_of_isParent hq).trans ih.1, hq.isAbsolute_eq.trans ih.2⟩) above h
  refine List.mem_map.mpr ⟨_, (List.mem_inits _ _).mpr hall.1, ?_⟩
  rw [destination, origin, origin, hall.2]

section
variable {d d' : Disk}

theorem destination_congr (h : d'.current = d.current) (path : Bytes) :
    d'.destination path = d.destination path := by
  rw [destination, destination, origin, origin, h]

end

end Linewise.Disk
