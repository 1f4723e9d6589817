import Linewise.Files.Tree
import Mathlib.Data.List.Basic
/-!
The operations on a file tree through the slots of their paths. An operation that keeps every
directory keeps the slot of every path, so a path still leads where it led before.
-/
namespace Linewise

namespace FileTree

/-- Every directory of a tree is a directory of another. -/
def KeepsDirectories (t t' : FileTree) : Prop :=
  ∀ place, t.find? place = some .directory → t'.find? place = some .directory

variable {t : FileTree} {place : Place}

theorem KeepsDirectories.trans {t₁ t₂ t₃ : FileTree} (h : t₁.KeepsDirectories t₂)
    (h' : t₂.KeepsDirectories t₃) : t₁.KeepsDirectories t₃ :=
  fun place hplace => h' place (h place hplace)

end FileTree

namespace Disk

theorem directory_of_walk {t : FileTree} {place place' : Place} {names : List Bytes}
    (hne : names ≠ []) (h : walk t place names = .ok place') : t.find? place = some .directory := by
  cases names with
  | nil => exact absurd rfl hne
  | cons name rest =>
      unfold walk at h
      split at h
      · assumption
      · cases h
      · cases h

/-- A walk that ends with a dot has ended before it at a directory. -/
theorem walk_dot_iff {t : FileTree} {place place' : Place} {names : List Bytes} :
    walk t place (names ++ [utf8 "."]) = .ok place' ↔
      walk t place names = .ok place' ∧ t.find? place' = some .directory := by
  have hdot (p : Place) : walk t p [utf8 "."] = .ok place' ↔
      p = place' ∧ t.find? place' = some .directory := by
    constructor
    · intro h
      have hdirectory := directory_of_walk (by simp) h
      simp only [walk, hdirectory, if_true, Except.ok.injEq] at h
      exact ⟨h, h ▸ hdirectory⟩
    · rintro ⟨rfl, h⟩
      simp only [walk, h, if_true]
  rw [walk_append]
  cases walk t place names with
  | error e => simp [Except.bind]
  | ok p =>
      simp only [Except.bind, hdot, Except.ok.injEq]

/-- The name in which a path ends. -/
def lastStep (path : Bytes) : Bytes := (Path.names (systemPath path)).getLastD (utf8 ".")

theorem slot_eq_ok_iff {d : Disk} {path : Bytes} {place : Place} {name : Bytes} :
    d.slot path = .ok (place, name) ↔
      systemPath path ≠ [] ∧ (systemPath path).length ≤ longestPath ∧
        walk d.tree (d.origin (systemPath path))
          ((Path.names (systemPath path)).dropLast ++ [utf8 "."]) = .ok place ∧
        name = lastStep path := by
  by_cases hempty : systemPath path = []
  · simp [slot, hempty]
  by_cases hlong : longestPath < (systemPath path).length
  · simp [slot, hempty, hlong, Nat.not_le.mpr hlong]
  · cases hwalk : walk d.tree (d.origin (systemPath path))
      ((Path.names (systemPath path)).dropLast ++ [utf8 "."]) with
    | error e => simp [slot, hempty, hlong, hwalk]
    | ok p =>
        simp only [slot, List.isEmpty_iff, hempty, if_false, hlong, hwalk, Except.ok.injEq,
          Prod.mk.injEq, ne_eq, not_false_eq_true, Nat.not_lt.mp hlong, true_and, lastStep,
          eq_comm (a := name)]

section
variable {d : Disk} {path : Bytes} {place : Place} {name : Bytes}

theorem names_of_slot (h : d.slot path = .ok (place, name)) (hdots : Path.isDots name = false) :
    Path.names (systemPath path) = (Path.names (systemPath path)).dropLast ++ [name] := by
  obtain ⟨_, _, _, hname⟩ := slot_eq_ok_iff.mp h
  have hsome : Path.names (systemPath path) ≠ [] := by
    intro hnil
    rw [lastStep, hnil] at hname
    rw [hname] at hdots
    exact absurd hdots (by decide)
  rw [hname, lastStep, List.getLastD_eq_getLast?, List.getLast?_eq_some_getLast hsome,
    Option.getD_some, List.dropLast_append_getLast]

/-- The path leads to a name for a file in a directory that is there. -/
structure Leads (d : Disk) (path : Bytes) (place : Place) (name : Bytes) : Prop where
  slot : d.slot path = .ok (place, name)
  dots : Path.isDots name = false
  slash : Path.endsWithSlash (systemPath path) = false
  short : name.length ≤ longestName

/-- A file is read through the path that leads to it. -/
theorem Leads.read {content : Bytes} (h : d.Leads path place name)
    (hfile : d.tree.find? (place ++ [name]) = some (.file content)) :
    d.read path = .ok content := by
  obtain ⟨hempty, hlong, hwalk, _⟩ := slot_eq_ok_iff.mp h.slot
  obtain ⟨hplace, hdirectory⟩ := walk_dot_iff.mp hwalk
  have hdots := h.dots
  simp only [Path.isDots, Bool.or_eq_false_iff, beq_eq_false_iff_ne] at hdots
  have hlast : walk d.tree place [name] = .ok (place ++ [name]) := by
    simp only [walk, hdirectory, hdots.1, hdots.2, if_false, Nat.not_lt.mpr h.short, hfile,
      Option.isNone_some, Bool.false_eq_true]
  have hlocate : d.locate path = .ok (place ++ [name]) := by
    rw [locate, if_neg (Nat.not_lt.mpr hlong), resolve]
    simp only [steps, h.slash]
    rw [names_of_slot h.slot h.dots, if_neg (by simpa using hempty)]
    simp [walk_append, hplace, Except.bind, hlast]
  simp only [Disk.read, look, hlocate, hfile]

/-- A file with this content has been written where the path leads. -/
structure Written (d : Disk) (path content : Bytes) (written : Disk) (place : Place)
    (name : Bytes) : Prop where
  leads : written.Leads path place name
  file : written.tree.find? (place ++ [name]) = some (.file content)
  current : written.current = d.current
  other : ∀ q ≠ place ++ [name], written.tree.find? q = d.tree.find? q
  free : d.tree.find? (place ++ [name]) ≠ some .directory

variable {moved : Disk} {source target : Bytes}

end

end Disk

end Linewise
