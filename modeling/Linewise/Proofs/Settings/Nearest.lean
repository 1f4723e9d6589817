import Linewise.Proofs.Files.Ordinary
import Linewise.Proofs.Settings.ProjectRoot
/-!
Which directory the project of a path is. The search reads the text of the path upwards; here it is
said in terms of the tree. The levels of the text are the directories on the way from the root, and
the first that shows a marker is the deepest. A marker is passed over only if the text of its path
is longer than the system takes.
-/
namespace Linewise

namespace Settings

open Disk

/-- The directory that a path stands in, or the one that it is. -/
def startOf (d : Disk) (path : Bytes) : Place :=
  if d.isDirectory path then Path.names path else (Path.names path).dropLast

/-- The tree has a project's marker in a directory. -/
def Carries (d : Disk) (place : Place) : Prop :=
  d.tree.find? (place ++ [utf8 ".quill"]) = some .directory ∨
    (d.tree.find? (place ++ [utf8 ".git"])).isSome = true

instance (d : Disk) (place : Place) : Decidable (Carries d place) :=
  inferInstanceAs (Decidable (_ ∨ _))

/-- A level of a path shows a project's marker. -/
def Shows (d : Disk) (level : Bytes) : Prop :=
  d.entry? level (utf8 ".quill") = some .directory ∨ (d.entry? level (utf8 ".git")).isSome = true

/-- A project's marker shows at a level of a path that stands for the directory. -/
def Seen (d : Disk) (path : Bytes) (place : Place) : Prop :=
  ∃ level ∈ Path.ancestors (searched d path), Path.names level = place ∧ Shows d level

/-- The deepest place of a kind on the way from the root, if there is any. -/
def Deepest (kind : Place → Prop) (start : Place) : Option Place → Prop
  | some place =>
    place <+: start ∧ kind place ∧ ∀ other, other <+: start → kind other → other <+: place
  | none => ∀ place, place <+: start → ¬ kind place

/-- What is found for a path that is there. -/
structure Nearest (d : Disk) (path : Bytes) (found : Option Bytes) : Prop where
  directories : ∀ place, place <+: startOf d path → d.tree.find? place = some .directory
  deepest : ∃ root?, found.map d.locate = root?.map .ok ∧
    Deepest (Seen d path) (startOf d path) root?
  seen : (Path.join path (utf8 ".quill")).length ≤ longestPath →
    ∀ place, place <+: startOf d path → (Seen d path place ↔ Carries d place)

section
variable {d : Disk} {path : Bytes} (h : Ordinary path)
include h

theorem isProjectRoot_iff (hreached : d.Reached (Path.names path)) :
    isProjectRoot d path = true ↔ Shows d path := by
  have hquill : ProperName (utf8 ".quill") := by decide
  have hgit : ProperName (utf8 ".git") := by decide
  simp only [isProjectRoot, Bool.or_eq_true, isDirectory_iff, isThere_iff,
    look_join_eq_ok_iff h hreached hquill, look_join_eq_ok_iff h hreached hgit, Shows,
    Option.isSome_iff_exists]

theorem ordinary_searched : Ordinary (searched d path) := by
  rw [searched]
  split
  · exact h
  · exact h.of_isParent (Path.isParent_parent path)

/-- A short path shows what the tree has. -/
theorem shows_iff {level : Bytes} (hlevel : level ∈ Path.ancestors (searched d path))
    (hshort : (Path.join path (utf8 ".quill")).length ≤ longestPath) :
    Shows d level ↔ Carries d (Path.names level) := by
  have hne := Path.ne_nil_of_mem_ancestors hlevel
  have hpath := Path.ne_nil_of_isAbsolute h.absolute
  have hjoint := Path.length_joint_le_of_front (front_of_level hlevel)
  have hquill : (Path.join level (utf8 ".quill")).length ≤ longestPath := by
    rw [Path.length_join hpath rfl] at hshort
    rw [Path.length_join hne rfl]
    omega
  have hgit : (Path.join level (utf8 ".git")).length ≤ longestPath := by
    have hlonger : (utf8 ".git").length ≤ (utf8 ".quill").length := by decide
    rw [Path.length_join hne rfl] at hquill ⊢
    omega
  rw [Shows, Carries, entry?, entry?, if_neg (Nat.not_lt.mpr hquill), if_neg (Nat.not_lt.mpr hgit)]

variable (hthere : d.isThere path = true)
include hthere

/-- The search starts at the directory that the path stands in. -/
theorem names_searched : Path.names (searched d path) = startOf d path := by
  rw [searched, startOf]
  split
  · rfl
  · rename_i hfile
    obtain ⟨node, hlook⟩ := isThere_iff.mp hthere
    obtain ⟨hlocate, hfind⟩ := h.look_eq_ok_iff.mp hlook
    have hend : Path.endsWithSlash path = false := by
      rw [Bool.eq_false_iff]
      intro hend
      have hdirectory := (h.locate_eq_ok_iff.mp hlocate).2.2.2 hend
      exact hfile (isDirectory_iff.mpr (h.look_eq_ok_iff.mpr ⟨hlocate, hdirectory⟩))
    rw [Path.names_parent, hend]
    rfl

theorem reached_of_start {place : Place} (hfront : place <+: startOf d path) : d.Reached place := by
  obtain ⟨node, hlook⟩ := isThere_iff.mp hthere
  obtain ⟨hlocate, hfind⟩ := h.look_eq_ok_iff.mp hlook
  have hwalk := (h.locate_eq_ok_iff.mp hlocate).2.2.1
  rw [startOf] at hfront
  split at hfront
  · rename_i hdirectory
    rw [isDirectory_iff, h.look_eq_ok_iff] at hdirectory
    exact reached_of_front h.dots hwalk hfront fun _ => hdirectory.2
  · refine reached_of_front h.dots hwalk (hfront.trans (List.dropLast_prefix _)) ?_
    -- Only the root has no name that is dropped.
    intro hself
    have hlength := hfront.length_le
    rw [hself, List.length_dropLast] at hlength
    have hroot : Path.names path = [] := List.eq_nil_of_length_eq_zero (by omega)
    rw [hroot]
    rfl

variable {level : Bytes} (hlevel : level ∈ Path.ancestors (searched d path))
include hlevel

theorem front_of_start : Path.names level <+: startOf d path := by
  rw [← names_searched h hthere]
  exact (Path.climb_ancestors _).names_front level hlevel

theorem isProjectRoot_level_iff : isProjectRoot d level = true ↔ Shows d level :=
  isProjectRoot_iff ((ordinary_searched h).of_mem_ancestors hlevel)
    (reached_of_start h hthere (front_of_start h hthere hlevel))

theorem locate_level : d.locate level = .ok (Path.names level) := by
  obtain ⟨node, hlook⟩ := isThere_iff.mp hthere
  have hshort := (h.locate_eq_ok_iff.mp (h.look_eq_ok_iff.mp hlook).1).1
  have hreached := reached_of_start h hthere (front_of_start h hthere hlevel)
  have hlength := (front_of_level hlevel).length_le
  rw [((ordinary_searched h).of_mem_ancestors hlevel).locate_eq_ok_iff]
  exact ⟨by omega, rfl, hreached.walk, fun _ => hreached.directory⟩

end

/-- What is found first comes before all that could have been found. -/
theorem eq_or_of_find? {α : Type} {test : α → Bool} {order : α → α → Prop} {l : List α} {a b : α}
    (horder : l.Pairwise order) (h : l.find? test = some a) (hmem : b ∈ l) (hb : test b = true) :
    b = a ∨ order a b := by
  obtain ⟨_, before, after, rfl, hbefore⟩ := List.find?_eq_some_iff_append.mp h
  rcases List.mem_append.mp hmem with hmem | hmem
  · have := hbefore b hmem
    simp [hb] at this
  · rcases List.mem_cons.mp hmem with rfl | hmem
    · exact .inl rfl
    · exact .inr (List.rel_of_pairwise_cons (List.pairwise_append.mp horder).2.1 hmem)

section
variable {d : Disk} {path : Bytes} (h : Ordinary path) (hthere : d.isThere path = true)
include h hthere

theorem deepest_of_some {root : Bytes} (hroot : projectRoot? d path = some root) :
    d.locate root = .ok (Path.names root) ∧
      Deepest (Seen d path) (startOf d path) (some (Path.names root)) := by
  rw [projectRoot?_of_isThere hthere] at hroot
  have hlevel := List.mem_of_find?_eq_some hroot
  have hshows := (isProjectRoot_level_iff h hthere hlevel).mp (List.find?_some hroot)
  refine ⟨locate_level h hthere hlevel, front_of_start h hthere hlevel,
    ⟨root, hlevel, rfl, hshows⟩, ?_⟩
  rintro _ _ ⟨level, hmem, rfl, hother⟩
  have hmarked := (isProjectRoot_level_iff h hthere hmem).mpr hother
  rcases eq_or_of_find? (Path.climb_ancestors _).pairwise hroot hmem hmarked with rfl | habove
  · exact List.prefix_rfl
  · exact habove

theorem deepest_of_none (hnone : projectRoot? d path = none) :
    Deepest (Seen d path) (startOf d path) none := by
  rw [projectRoot?_of_isThere hthere, List.find?_eq_none] at hnone
  rintro _ _ ⟨level, hmem, rfl, hshows⟩
  exact hnone level hmem ((isProjectRoot_level_iff h hthere hmem).mpr hshows)

theorem seen_iff_carries (hshort : (Path.join path (utf8 ".quill")).length ≤ longestPath)
    {place : Place} (hfront : place <+: startOf d path) : Seen d path place ↔ Carries d place := by
  constructor
  · rintro ⟨level, hmem, rfl, hshows⟩
    exact (shows_iff h hmem hshort).mp hshows
  · intro hcarries
    rw [← names_searched h hthere] at hfront
    obtain ⟨level, hmem, rfl⟩ :=
      (Path.climb_ancestors _).exists_level (ordinary_searched h).absolute hfront
    exact ⟨level, hmem, rfl, (shows_iff h hmem hshort).mpr hcarries⟩

theorem nearest_projectRoot? : Nearest d path (projectRoot? d path) := by
  refine ⟨fun place hfront => (reached_of_start h hthere hfront).directory, ?_,
    fun hshort place hfront => seen_iff_carries h hthere hshort hfront⟩
  cases hroot : projectRoot? d path with
  | none => exact ⟨none, rfl, deepest_of_none h hthere hroot⟩
  | some root =>
      obtain ⟨hlocate, hdeepest⟩ := deepest_of_some h hthere hroot
      exact ⟨some (Path.names root), by rw [Option.map_some, Option.map_some, hlocate], hdeepest⟩

end

theorem projectRoot?_nil (d : Disk) : projectRoot? d [] = projectRoot? d d.currentPath := by
  have hcurrent : d.currentPath.isEmpty = false := by
    rw [currentPath, pathOf]
    cases d.current with
    | nil => rfl
    | cons name place => rfl
  simp only [projectRoot?, hcurrent]
  rfl

/-- The project of a path is the deepest directory on the way to it that shows a marker. The way up
from a path ends. Nothing is found for a path that is not there; the empty path stands for the
current directory. -/
theorem projectRoot?_nearest (d : Disk) (path : Bytes) :
    Path.Climb path (Path.ancestors path) ∧
      projectRoot? d [] = projectRoot? d d.currentPath ∧
      (path ≠ [] → d.isThere path = false → projectRoot? d path = none) ∧
      (Ordinary path → d.isThere path = true → Nearest d path (projectRoot? d path)) := by
  refine ⟨Path.climb_ancestors path, projectRoot?_nil d, ?_, nearest_projectRoot?⟩
  intro hne hmissing
  simp [projectRoot?, hne, hmissing]

/-- A file with the name of the one marker is passed over; any entry with the name of the other is
not. -/
theorem projectRoot?_nearest_past_file :
    let d : Disk :=
      { tree := ⟨[([utf8 "a"], .directory), ([utf8 "a", utf8 ".git"], .file []),
          ([utf8 "a", utf8 "b"], .directory), ([utf8 "a", utf8 "b", utf8 ".quill"], .file []),
          ([utf8 "a", utf8 "b", utf8 "f.qs"], .file [])]⟩ }
    Nearest d (utf8 "/a/b/f.qs") (some (utf8 "/a")) ∧ projectRoot? d (utf8 "/a/g.qs") = none := by
  intro d
  have hroot : projectRoot? d (utf8 "/a/b/f.qs") = some (utf8 "/a") := by decide +kernel
  have hordinary : Ordinary (utf8 "/a/b/f.qs") := by decide +kernel
  have hthere : d.isThere (utf8 "/a/b/f.qs") = true := by decide +kernel
  have hmissing : d.isThere (utf8 "/a/g.qs") = false := by decide +kernel
  refine ⟨?_, (projectRoot?_nearest d (utf8 "/a/g.qs")).2.2.1 (by decide) hmissing⟩
  rw [← hroot]
  exact (projectRoot?_nearest d (utf8 "/a/b/f.qs")).2.2.2 hordinary hthere

/-- Paths for which the nearest marked directory is not what is found: the empty path, one with a
NUL, which is taken for the part before it, and one in which slashes leave no room for a marker. -/
theorem projectRoot?_not_nearest :
    let d : Disk :=
      { tree := ⟨[([utf8 "m"], .directory), ([utf8 "m", utf8 ".git"], .directory),
          ([utf8 "d"], .directory)]⟩
        current := [utf8 "m"] }
    let cut := utf8 "/d" ++ [Byte.nul] ++ utf8 "x"
    let long := Path.slashes 4090 ++ utf8 "m"
    (d.isThere [] = false ∧ projectRoot? d [] = some (utf8 "/m")) ∧
      (d.isThere cut = true ∧ projectRoot? d cut = some cut ∧
        ∀ place ∈ [[], [utf8 "d"]], ¬ Carries d place) ∧
      (Ordinary long ∧ d.isThere long = true ∧ startOf d long = [utf8 "m"] ∧
        Carries d [utf8 "m"] ∧ projectRoot? d long = none) := by
  intro d cut long
  have hparent : Path.IsParent [Byte.slash] long := .ofRoot 4089 (by decide) (by decide)
  have hnames : Path.names long = [utf8 "m"] := Path.names_slashes_append 4090 (utf8 "m")
  have hlength : long.length = 4091 := by
    rw [List.length_append, Path.slashes, List.length_replicate]
    rfl
  have hordinary : Ordinary long := by
    refine ⟨rfl, ?_, ?_⟩
    · rw [List.mem_append, Path.slashes, List.mem_replicate]
      decide
    · rw [hnames]
      decide
  have hlook : d.look long = .ok .directory := by
    rw [hordinary.look_eq_ok_iff, hordinary.locate_eq_ok_iff, hnames, hlength]
    exact ⟨⟨by decide, rfl, by decide +kernel, fun _ => by decide +kernel⟩, by decide +kernel⟩
  have hdirectory : d.isDirectory long = true := isDirectory_iff.mpr hlook
  have hthere : d.isThere long = true := isThere_iff.mpr ⟨_, hlook⟩
  have hroot : projectRoot? d long = none := by
    rw [projectRoot?_of_isThere hthere, searched, if_pos hdirectory,
      Path.ancestors_of_isParent hparent (by rw [hlength]; decide)]
    decide +kernel
  refine ⟨by decide +kernel, by decide +kernel, hordinary, hthere, ?_, by decide +kernel, hroot⟩
  rw [startOf, if_pos hdirectory, hnames]

end Settings

end Linewise
