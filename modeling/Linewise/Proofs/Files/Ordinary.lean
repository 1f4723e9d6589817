import Linewise.Proofs.Files.Joined
import Linewise.Proofs.Files.Levels
/-!
Paths from the root by the names of entries. Without dots such a path names its place, and what is
looked up at it is the entry there, as far as the walk gets and the system takes the text.
-/
namespace Linewise

namespace Disk

/-- A path from the root by the names of entries. -/
structure Ordinary (path : Bytes) : Prop where
  absolute : Path.isAbsolute path = true
  nul : Byte.nul ∉ path
  dots : ∀ name ∈ Path.names path, Path.isDots name = false

theorem ordinary_iff (path : Bytes) : Ordinary path ↔ Path.isAbsolute path = true ∧
    Byte.nul ∉ path ∧ ∀ name ∈ Path.names path, Path.isDots name = false :=
  ⟨fun h => ⟨h.absolute, h.nul, h.dots⟩,
    fun ⟨habsolute, hnul, hdots⟩ => ⟨habsolute, hnul, hdots⟩⟩

instance (path : Bytes) : Decidable (Ordinary path) := decidable_of_iff _ (ordinary_iff path).symm

/-- A directory that can be walked to from the root. -/
structure Reached (d : Disk) (place : Place) : Prop where
  walk : walk d.tree [] place = .ok place
  directory : d.tree.find? place = some .directory

/-- The entry of a name in the directory of a path, if the system takes the path of the entry. -/
def entry? (d : Disk) (directory name : Bytes) : Option Node :=
  if longestPath < (Path.join directory name).length then none
  else d.tree.find? (Path.names directory ++ [name])

theorem foldl_follow {names : List Bytes} (h : ∀ name ∈ names, Path.isDots name = false)
    (place : Place) : names.foldl follow place = place ++ names := by
  induction names generalizing place with
  | nil => exact (List.append_nil place).symm
  | cons name names ih =>
      rw [List.forall_mem_cons] at h
      rw [List.foldl_cons, follow_of_not_dots place h.1, ih h.2, List.append_assoc,
        List.singleton_append]

theorem eq_of_walk {t : FileTree} {names : List Bytes} {place : Place}
    (hdots : ∀ name ∈ names, Path.isDots name = false) (h : walk t [] names = .ok place) :
    place = names := by
  rw [← foldl_of_walk h, foldl_follow hdots, List.nil_append]

theorem walk_steps_iff {t : FileTree} {path : Bytes} {place : Place} :
    walk t [] (steps path) = .ok place ↔ walk t [] (Path.names path) = .ok place ∧
      (Path.endsWithSlash path = true → t.find? place = some .directory) := by
  rw [steps]
  split
  · rename_i hend
    rw [walk_dot_iff]
    simp only [hend, true_imp_iff]
  · rename_i hend
    simp [hend]

section
variable {d : Disk} {path : Bytes} (h : Ordinary path)
include h

theorem Ordinary.locate_eq : d.locate path =
    if longestPath < path.length then .error .nameTooLong else walk d.tree [] (steps path) := by
  have hne : path ≠ [] := Path.ne_nil_of_isAbsolute h.absolute
  simp [locate, resolve, systemPath_of_nul_not_mem h.nul, hne, origin, h.absolute]

theorem Ordinary.locate_eq_ok_iff {place : Place} : d.locate path = .ok place ↔
    path.length ≤ longestPath ∧ place = Path.names path ∧
      walk d.tree [] (Path.names path) = .ok (Path.names path) ∧
      (Path.endsWithSlash path = true → d.tree.find? (Path.names path) = some .directory) := by
  rw [h.locate_eq]
  split
  · rename_i hlong
    simp [Nat.not_le.mpr hlong]
  · rename_i hshort
    rw [walk_steps_iff]
    constructor
    · rintro ⟨hwalk, hend⟩
      obtain rfl := eq_of_walk h.dots hwalk
      exact ⟨Nat.not_lt.mp hshort, rfl, hwalk, hend⟩
    · rintro ⟨_, rfl, hwalk, hend⟩
      exact ⟨hwalk, hend⟩

theorem Ordinary.look_eq_ok_iff {node : Node} : d.look path = .ok node ↔
    d.locate path = .ok (Path.names path) ∧ d.tree.find? (Path.names path) = some node := by
  rw [look]
  cases hlocate : d.locate path with
  | error e => simp
  | ok place =>
      obtain ⟨_, rfl, _, _⟩ := h.locate_eq_ok_iff.mp hlocate
      cases hfind : d.tree.find? (Path.names path) with
      | none => simp [hfind]
      | some other => simp [hfind]

theorem Ordinary.of_isParent {above : Bytes} (hparent : Path.IsParent above path) :
    Ordinary above := by
  refine ⟨?_, ?_, ?_⟩
  · rw [hparent.isAbsolute_eq, h.absolute]
  · exact fun hnul => h.nul (hparent.front.subset hnul)
  · intro name hname
    rw [hparent.names_eq] at hname
    split at hname
    · exact h.dots name hname
    · exact h.dots name (List.mem_of_mem_dropLast hname)

theorem Ordinary.of_mem_ancestors {above : Bytes} (habove : above ∈ Path.ancestors path) :
    Ordinary above :=
  Path.ancestors_induction h (fun _ _ hparent hq => hq.of_isParent hparent) above habove

end

theorem ProperName.isAbsolute {name : Bytes} (h : ProperName name) :
    Path.isAbsolute name = false := by
  rw [Path.isAbsolute, beq_eq_false_iff_ne]
  exact fun hhead => h.slash (List.mem_of_mem_head? hhead)

section
variable {d : Disk} {path name : Bytes}

theorem names_join (hne : path ≠ []) (hname : ProperName name) :
    Path.names (Path.join path name) = Path.names path ++ [name] := by
  rw [Path.join_eq hne hname.isAbsolute, Path.names_joint,
    Path.names_of_slash_not_mem hname.ne_nil hname.slash]

theorem Ordinary.join (h : Ordinary path) (hname : ProperName name) :
    Ordinary (Path.join path name) := by
  have hne := Path.ne_nil_of_isAbsolute h.absolute
  refine ⟨?_, ?_, ?_⟩
  · rw [Path.isAbsolute_join hne hname.isAbsolute, h.absolute]
  · rw [Path.join_eq hne hname.isAbsolute, Path.joint]
    have hnul := h.nul
    have hnul' := hname.nul
    have hslash : Byte.nul ≠ Byte.slash := by decide
    split
    · simp [hnul, hnul']
    · simp [hnul, hnul', hslash]
  · rw [names_join hne hname, List.forall_mem_append, List.forall_mem_singleton]
    exact ⟨h.dots, hname.dots⟩

theorem Reached.walk_name {place : Place} (h : d.Reached place) (hname : ProperName name) :
    Disk.walk d.tree [] (place ++ [name]) = .ok (place ++ [name]) ↔
      (d.tree.find? (place ++ [name])).isSome = true := by
  have hdots := hname.dots
  simp only [Path.isDots, Bool.or_eq_false_iff, beq_eq_false_iff_ne] at hdots
  have hshort := Nat.not_lt.mpr hname.short
  rw [walk_append, h.walk]
  cases hfind : d.tree.find? (place ++ [name]) with
  | none => simp [Except.bind, Disk.walk, h.directory, hdots, hshort, hfind]
  | some node => simp [Except.bind, Disk.walk, h.directory, hdots, hshort, hfind]

/-- What is looked up below a directory is its entry. -/
theorem look_join_eq_ok_iff (h : Ordinary path) (hreached : d.Reached (Path.names path))
    (hname : ProperName name) {node : Node} :
    d.look (Path.join path name) = .ok node ↔ d.entry? path name = some node := by
  have hne := Path.ne_nil_of_isAbsolute h.absolute
  have hend : Path.endsWithSlash (Path.join path name) = false := by
    rw [Path.join_eq hne hname.isAbsolute, Path.endsWithSlash_append _ hname.ne_nil,
      Path.endsWithSlash_of_slash_not_mem hname.slash]
  rw [(h.join hname).look_eq_ok_iff, (h.join hname).locate_eq_ok_iff, names_join hne hname,
    hreached.walk_name hname, hend, entry?]
  split
  · rename_i hlong
    simp [Nat.not_le.mpr hlong]
  · rename_i hshort
    simp only [Nat.not_lt.mp hshort, Bool.false_eq_true, false_imp_iff, and_true, true_and]
    constructor
    · exact fun hfind => hfind.2
    · exact fun hfind => ⟨by rw [hfind]; rfl, hfind⟩

theorem isDirectory_iff : d.isDirectory path = true ↔ d.look path = .ok .directory := by
  rw [isDirectory]
  split
  · rename_i hlook
    simp [hlook]
  · rename_i hlook
    simpa using hlook

theorem isThere_iff : d.isThere path = true ↔ ∃ node, d.look path = .ok node := by
  rw [isThere]
  split
  · rename_i hlook
    simp [hlook]
  · rename_i hlook
    simp [hlook]

end

/-- Above the end of a walk there are only directories. -/
theorem reached_of_front {d : Disk} {names place : Place}
    (hdots : ∀ name ∈ names, Path.isDots name = false) (hwalk : walk d.tree [] names = .ok names)
    (hfront : place <+: names) (hlast : place = names → d.tree.find? names = some .directory) :
    d.Reached place := by
  obtain ⟨back, rfl⟩ := hfront
  rw [walk_append] at hwalk
  cases hplace : walk d.tree [] place with
  | error e =>
      rw [hplace] at hwalk
      cases hwalk
  | ok q =>
      have hplaceDots : ∀ name ∈ place, Path.isDots name = false :=
        fun name hname => hdots name (List.mem_append_left back hname)
      obtain rfl := eq_of_walk hplaceDots hplace
      refine ⟨hplace, ?_⟩
      by_cases hback : back = []
      · rw [hback, List.append_nil] at hlast
        exact hlast rfl
      · rw [hplace] at hwalk
        exact directory_of_walk hback hwalk

end Disk

end Linewise
