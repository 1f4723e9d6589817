import Linewise.Proofs.Files.Joined
import Linewise.Settings.Layers
import Mathlib.Data.List.Find
/-!
The project of a relative path, and of the same path seen from the current directory. The search
goes up the text of a path. From a relative path it ends below the current directory; only the
absolute spelling goes on to that directory and to those above it.
-/
namespace Linewise.Settings

/-- The path whose levels are searched. -/
def searched (d : Disk) (path : Bytes) : Bytes :=
  if d.isDirectory path then path else Path.parent path

/-- The file that the layer of a project is read from. -/
def projectFile (root : Bytes) : Bytes :=
  Path.join (Path.join root (utf8 ".quill")) (utf8 "config.toml")

theorem projectFile_eq {root : Bytes} (hne : root ≠ []) :
    projectFile root = Path.join root (utf8 ".quill/config.toml") := by
  have hquill : Path.isAbsolute (utf8 ".quill") = false := rfl
  have hnames : Path.joint (utf8 ".quill") ++ utf8 "config.toml" = utf8 ".quill/config.toml" := rfl
  rw [projectFile, Path.join_eq (Path.join_ne_nil hne hquill) rfl, Path.join_eq hne hquill,
    Path.joint_append (by decide), List.append_assoc, hnames, Path.join_eq hne rfl]

section
variable {d : Disk} {path : Bytes}

theorem ne_nil_of_isThere (h : d.isThere path = true) : path ≠ [] := by
  rintro rfl
  cases h

theorem projectRoot?_of_isThere (h : d.isThere path = true) :
    projectRoot? d path = (Path.ancestors (searched d path)).find? (isProjectRoot d) := by
  have hne : path.isEmpty = false := List.isEmpty_eq_false_iff.mpr (ne_nil_of_isThere h)
  rw [projectRoot?, hne]
  exact if_pos h

/-- One of the levels of a path carries a project's marker. -/
def Marked (d : Disk) (path : Bytes) : Prop :=
  ∃ above ∈ Path.ancestors path, isProjectRoot d above = true

instance (d : Disk) (path : Bytes) : Decidable (Marked d path) :=
  inferInstanceAs (Decidable (∃ above ∈ Path.ancestors path, isProjectRoot d above = true))

theorem isSome_projectRoot?_iff (h : d.isThere path = true) :
    (projectRoot? d path).isSome = true ↔ Marked d (searched d path) := by
  rw [projectRoot?_of_isThere h, List.find?_isSome, Marked]

theorem front_of_level {above : Bytes} (h : above ∈ Path.ancestors (searched d path)) :
    above <+: path := by
  rw [searched] at h
  split at h
  · exact Path.front_of_mem_ancestors h
  · exact (Path.front_of_mem_ancestors h).trans (Path.isParent_parent path).front

theorem project_of (env : Environment) (anchor : Bytes) :
    (Sources.of d env (some anchor)).project =
      ((projectRoot? d anchor).map projectFile).getD [] := by
  cases h : projectRoot? d anchor with
  | none => simp [Sources.of, h]
  | some root => simp [Sources.of, h, projectFile]

end

/-- A relative path that the system sees something of, and that it takes also from the root. -/
structure Near (d : Disk) (path : Bytes) : Prop where
  relative : Path.isAbsolute path = false
  seen : Disk.systemPath path ≠ []
  short : (Path.join d.currentPath path).length ≤ Disk.longestPath

theorem seen_iff {path : Bytes} :
    Disk.systemPath path ≠ [] ↔ path ≠ [] ∧ path.head? ≠ some Byte.nul := by
  cases path with
  | nil => simp [Disk.systemPath]
  | cons b rest => simp [Disk.systemPath]

section
variable {d : Disk} {path : Bytes}

theorem Near.ne_nil (h : Near d path) : path ≠ [] := (seen_iff.mp h.seen).1

variable (hd : d.Standing)
include hd

theorem Near.look_join (h : Near d path) :
    d.look (Path.join d.currentPath path) = d.look path := by
  rw [Disk.look, Disk.look, hd.locate_join h.relative h.seen h.short]

theorem Near.of_head {other : Bytes} (h : Near d path) (hne : other ≠ [])
    (hhead : other.head? = path.head?) (hlength : other.length ≤ path.length) : Near d other := by
  have hrelative : Path.isAbsolute other = false := by
    rw [Path.isAbsolute, hhead]
    exact h.relative
  refine ⟨hrelative, seen_iff.mpr ⟨hne, ?_⟩, ?_⟩
  · rw [hhead]
    exact (seen_iff.mp h.seen).2
  · have hshort := h.short
    rw [Path.length_join hd.plain.ne_nil h.relative] at hshort
    rw [Path.length_join hd.plain.ne_nil hrelative]
    omega

section
variable (hnear : Near d (projectFile path)) {above : Bytes} (hfront : above <+: path)
  (hne : above ≠ [])
include hnear hfront hne

/-- What is no longer than the project's file below a front of the path is near as well. -/
theorem Near.of_front {other : Bytes} (hother : other ≠ []) (hhead : other.head? = above.head?)
    (hlength : other.length ≤ (projectFile above).length) : Near d other := by
  have hlonger := Path.length_joint_le_of_front hfront
  obtain ⟨back, rfl⟩ := hfront
  have hpath : above ++ back ≠ [] := List.append_ne_nil_of_left_ne_nil hne back
  rw [projectFile_eq hpath] at hnear
  rw [projectFile_eq hne, Path.length_join hne rfl] at hlength
  refine hnear.of_head hd hother ?_ ?_
  · rw [hhead, Path.head?_join hpath rfl, List.head?_append_of_ne_nil _ hne]
  · rw [Path.length_join hpath rfl]
    omega

theorem Near.front : Near d above := by
  refine hnear.of_front hd hfront hne hne rfl ?_
  have hjoint := Path.length_le_joint above
  rw [projectFile_eq hne, Path.length_join hne rfl]
  omega

/-- A name below a front of the path is looked up alike from both spellings. -/
theorem look_join_join (name : Bytes) (hname : Path.isAbsolute name = false)
    (hlength : name.length ≤ (utf8 ".quill/config.toml").length) :
    d.look (Path.join (Path.join d.currentPath above) name) = d.look (Path.join above name) := by
  have hrelative := (hnear.front hd hfront hne).relative
  rw [Path.join_join hd.plain.ne_nil hne hrelative hname]
  refine Near.look_join hd (hnear.of_front hd hfront hne (Path.join_ne_nil hne hname) ?_ ?_)
  · exact Path.head?_join hne hname
  · rw [projectFile_eq hne, Path.length_join hne hname, Path.length_join hne rfl]
    omega

theorem isProjectRoot_join :
    isProjectRoot d (Path.join d.currentPath above) = isProjectRoot d above := by
  have hquill := look_join_join hd hnear hfront hne (utf8 ".quill") rfl (by decide)
  have hgit := look_join_join hd hnear hfront hne (utf8 ".git") rfl (by decide)
  rw [isProjectRoot, isProjectRoot, Disk.isDirectory, Disk.isDirectory, Disk.isThere, Disk.isThere,
    hquill, hgit]

theorem look_projectFile_join :
    d.look (projectFile (Path.join d.currentPath above)) = d.look (projectFile above) := by
  have hrelative := (hnear.front hd hfront hne).relative
  rw [projectFile_eq hne, projectFile_eq (Path.join_ne_nil hd.plain.ne_nil hrelative)]
  exact look_join_join hd hnear hfront hne _ rfl (Nat.le_refl _)

end

theorem isThere_current (hshort : d.currentPath.length ≤ Disk.longestPath) :
    d.isThere d.currentPath = true ∧ searched d d.currentPath = d.currentPath := by
  have hlook : d.look d.currentPath = .ok .directory := by
    rw [Disk.look, hd.locate_current hshort]
    simp only [hd.directories d.current List.prefix_rfl]
  rw [Disk.isThere, searched, Disk.isDirectory, hlook]
  exact ⟨rfl, rfl⟩

theorem Near.current (h : Near d path) : d.currentPath.length ≤ Disk.longestPath := by
  have hshort := h.short
  have hjoint := Path.length_le_joint d.currentPath
  rw [Path.length_join hd.plain.ne_nil h.relative] at hshort
  omega

variable (hnear : Near d (projectFile path)) (hthere : d.isThere path = true)
include hnear hthere

/-- The absolute spelling finds what the relative one finds, and only else what is found from the
current directory. -/
theorem projectRoot?_join :
    projectRoot? d (Path.join d.currentPath path) =
      ((projectRoot? d path).map (Path.join d.currentPath)).or
        (projectRoot? d d.currentPath) := by
  have hne := ne_nil_of_isThere hthere
  have hpath := hnear.front hd List.prefix_rfl hne
  have hlook := hpath.look_join hd
  obtain ⟨hcurrent, hsearched⟩ := isThere_current hd (hpath.current hd)
  have hlevels : Path.ancestors (searched d (Path.join d.currentPath path)) =
      (Path.ancestors (searched d path)).map (Path.join d.currentPath) ++
        Path.ancestors d.currentPath := by
    rw [searched, searched, Disk.isDirectory, Disk.isDirectory, hlook]
    split
    · exact Path.ancestors_join hd.plain hne hpath.relative
    · exact Path.ancestors_parent_join hd.plain hne hpath.relative
  have hmarked : (Path.ancestors (searched d path)).find?
      (isProjectRoot d ∘ Path.join d.currentPath) =
        (Path.ancestors (searched d path)).find? (isProjectRoot d) := by
    apply List.find?_congr
    intro above habove
    exact isProjectRoot_join hd hnear (front_of_level habove) (Path.ne_nil_of_mem_ancestors habove)
  rw [projectRoot?_of_isThere (by rw [Disk.isThere, hlook]; exact hthere), hlevels,
    List.find?_append, List.find?_map, hmarked, ← projectRoot?_of_isThere hthere,
    projectRoot?_of_isThere hcurrent, hsearched]

end

theorem near_of_isThere {d : Disk} {path : Bytes} (hrelative : Path.isAbsolute path = false)
    (hthere : d.isThere path = true)
    (hshort : (Path.join d.currentPath (projectFile path)).length ≤ Disk.longestPath) :
    Near d (projectFile path) := by
  have hne := ne_nil_of_isThere hthere
  have hseen : Disk.systemPath path ≠ [] := by
    intro hempty
    simp [Disk.isThere, Disk.look, Disk.locate, Disk.resolve, hempty] at hthere
  rw [projectFile_eq hne] at hshort ⊢
  refine ⟨?_, seen_iff.mpr ⟨Path.join_ne_nil hne rfl, ?_⟩, hshort⟩
  · rw [Path.isAbsolute_join hne rfl, hrelative]
  · rw [Path.head?_join hne rfl]
    exact (seen_iff.mp hseen).2

/-- Both spellings find the same project just if one of the levels of the relative path is marked,
or neither the current directory nor any above it is; and then they read the same file. -/
theorem spellings_agree_iff {d : Disk} (hd : d.Standing) {path : Bytes}
    (hrelative : Path.isAbsolute path = false) (hthere : d.isThere path = true)
    (hshort : (Path.join d.currentPath (projectFile path)).length ≤ Disk.longestPath) :
    let absolute := Path.join d.currentPath path
    let met := Marked d (searched d path) ∨ ¬ Marked d d.currentPath
    ((projectRoot? d absolute).map d.locate = (projectRoot? d path).map d.locate ↔ met) ∧
      (met → ∀ env, d.look (Sources.of d env (some absolute)).project =
        d.look (Sources.of d env (some path)).project) := by
  have hnear := near_of_isThere hrelative hthere hshort
  have hpath := hnear.front hd List.prefix_rfl (ne_nil_of_isThere hthere)
  obtain ⟨hcurrent, hsearched⟩ := isThere_current hd (hpath.current hd)
  have hbelow := isSome_projectRoot?_iff hthere
  have habove := isSome_projectRoot?_iff hcurrent
  rw [hsearched] at habove
  simp only [project_of, projectRoot?_join hd hnear hthere, ← hbelow, ← habove]
  cases hroot : projectRoot? d path with
  | none =>
      cases hother : projectRoot? d d.currentPath with
      | none => simp
      | some root => simp
  | some root =>
      have hlevel : root ∈ Path.ancestors (searched d path) := by
        rw [projectRoot?_of_isThere hthere] at hroot
        exact List.mem_of_find?_eq_some hroot
      have hne := Path.ne_nil_of_mem_ancestors hlevel
      have hfront := front_of_level hlevel
      have hfound := hnear.front hd hfront hne
      have hlocate := hd.locate_join hfound.relative hfound.seen hfound.short
      have hfile := look_projectFile_join hd hnear hfront hne
      simp [hlocate, hfile]

/-- The source of a project below the current directory, which belongs to another one. -/
theorem spellings_agree_at_inner_project :
    let d : Disk :=
      { tree := ⟨[([utf8 "r"], .directory), ([utf8 "r", utf8 ".git"], .directory),
          ([utf8 "r", utf8 "s"], .directory), ([utf8 "r", utf8 "s", utf8 ".quill"], .directory),
          ([utf8 "r", utf8 "s", utf8 "a.qs"], .file [])]⟩
        current := [utf8 "r"] }
    (projectRoot? d (utf8 "/r/s/a.qs")).map d.locate =
      (projectRoot? d (utf8 "s/a.qs")).map d.locate := by
  intro d
  have hstanding : d.Standing := by decide +kernel
  have hthere : d.isThere (utf8 "s/a.qs") = true := by decide +kernel
  have hmarked : Marked d (searched d (utf8 "s/a.qs")) := by decide +kernel
  exact (spellings_agree_iff hstanding rfl hthere (by decide +kernel)).1.mpr (.inl hmarked)

/-- Seen from a marked directory, a path below it that is not marked itself. -/
theorem relative_spelling_misses_project :
    let d : Disk :=
      { tree := ⟨[([utf8 "r"], .directory), ([utf8 "r", utf8 ".quill"], .directory),
          ([utf8 "r", utf8 "s"], .directory)]⟩
        current := [utf8 "r"] }
    d.Standing ∧ d.isThere (utf8 "s") = true ∧ projectRoot? d (utf8 "s") = none ∧
      projectRoot? d (Path.join d.currentPath (utf8 "s")) = some (utf8 "/r") := by
  decide +kernel

end Linewise.Settings
