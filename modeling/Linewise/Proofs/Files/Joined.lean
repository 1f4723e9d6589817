import Linewise.Proofs.Files.Destination
/-!
A relative path and the same path seen from the current directory. Their texts have the same levels
below the current directory, and as far as the system takes the longer text at all, both lead to the
same entries.
-/
namespace Linewise

namespace Path

/-- The text before what is joined to a path. -/
def joint (p : Bytes) : Bytes := if endsWithSlash p then p else p ++ [Byte.slash]

variable {p q : Bytes}

theorem join_eq (hne : p ≠ []) (hq : isAbsolute q = false) : join p q = joint p ++ q := by
  rw [join, joint, hq, List.isEmpty_eq_false_iff.mpr hne]
  simp only [Bool.false_or, Bool.false_eq_true, if_false]
  split
  · rfl
  · rfl

theorem ne_nil_of_isAbsolute (h : isAbsolute p = true) : p ≠ [] := by
  rintro rfl
  cases h

theorem head?_joint (hne : p ≠ []) : (joint p).head? = p.head? := by
  rw [joint]
  split
  · rfl
  · exact List.head?_append_of_ne_nil _ hne

theorem isAbsolute_joint (hne : p ≠ []) : isAbsolute (joint p) = isAbsolute p := by
  rw [isAbsolute, head?_joint hne, isAbsolute]

theorem joint_append (hne : q ≠ []) : joint (p ++ q) = p ++ joint q := by
  rw [joint, joint, endsWithSlash_append p hne]
  split
  · rfl
  · exact List.append_assoc _ _ _

theorem joint_ne_nil (hne : p ≠ []) : joint p ≠ [] := by
  rw [joint]
  split
  · exact hne
  · simp

theorem head?_join (hne : p ≠ []) (hq : isAbsolute q = false) : (join p q).head? = p.head? := by
  rw [join_eq hne hq, List.head?_append_of_ne_nil _ (joint_ne_nil hne), head?_joint hne]

theorem isAbsolute_join (hne : p ≠ []) (hq : isAbsolute q = false) :
    isAbsolute (join p q) = isAbsolute p := by
  rw [isAbsolute, head?_join hne hq, isAbsolute]

theorem join_ne_nil (hne : p ≠ []) (hq : isAbsolute q = false) : join p q ≠ [] := by
  rw [join_eq hne hq]
  exact List.append_ne_nil_of_left_ne_nil (joint_ne_nil hne) q

theorem length_join (hne : p ≠ []) (hq : isAbsolute q = false) :
    (join p q).length = (joint p).length + q.length := by
  rw [join_eq hne hq, List.length_append]

theorem join_join {c : Bytes} (hc : c ≠ []) (hne : p ≠ []) (hp : isAbsolute p = false)
    (hq : isAbsolute q = false) : join (join c p) q = join c (join p q) := by
  have hjoin : isAbsolute (join p q) = false := (isAbsolute_join hne hq).trans hp
  have hcp : joint c ++ p ≠ [] := List.append_ne_nil_of_right_ne_nil _ hne
  rw [join_eq hc hjoin, join_eq hc hp, join_eq hcp hq, join_eq hne hq, joint_append hne,
    List.append_assoc]

theorem length_le_joint (p : Bytes) : p.length ≤ (joint p).length := by
  rw [joint]
  split
  · exact Nat.le_refl _
  · simp

theorem length_joint_le_of_front (h : p <+: q) : (joint p).length ≤ (joint q).length := by
  obtain ⟨back, rfl⟩ := h
  cases back with
  | nil => rw [List.append_nil]
  | cons b back =>
      have hlong := length_le_joint (p ++ b :: back)
      have hone : (joint p).length ≤ p.length + 1 := by
        rw [joint]
        split
        · omega
        · simp
      rw [List.length_append, List.length_cons] at hlong
      omega

/-- The spellings of an absolute directory: the root, or no slash at the end. -/
def Plain (c : Bytes) : Prop := c = [Byte.slash] ∨ isAbsolute c = true ∧ endsWithSlash c = false

theorem Plain.ne_nil {c : Bytes} (hc : Plain c) : c ≠ [] := by
  rcases hc with rfl | ⟨habsolute, _⟩
  · simp
  · exact ne_nil_of_isAbsolute habsolute

theorem IsParent.join {c above : Bytes} (hc : Plain c) (h : IsParent above p)
    (hne : p ≠ []) (hrel : isAbsolute p = false) :
    IsParent (if above = [] then c else join c above) (join c p) := by
  have hcne := hc.ne_nil
  rw [join_eq hcne hrel]
  cases h with
  | nameless k =>
      cases k with
      | zero => exact absurd rfl hne
      | succ k => cases hrel
  | single hname hslash =>
      rw [if_pos rfl]
      rcases hc with rfl | ⟨habsolute, hend⟩
      · exact .ofRoot 0 hname hslash
      · rw [joint, hend]
        exact .below hcne hend 0 hslash
  | ofRoot k hname hslash => cases hrel
  | @below _ habove hend k name hslash =>
      have hrelative : isAbsolute above = false := by
        rwa [List.append_assoc, isAbsolute_append habove] at hrel
      rw [if_neg habove, join_eq hcne hrelative, List.append_assoc, ← List.append_assoc,
        ← List.append_assoc]
      refine .below (by simp [habove]) ?_ k hslash
      rw [endsWithSlash_append _ habove, hend]

theorem length_join_lt {c : Bytes} (hne : c ≠ []) (hrel : isAbsolute p = false)
    (hrel' : isAbsolute q = false) (h : p.length < q.length) :
    (join c p).length < (join c q).length := by
  rw [length_join hne hrel, length_join hne hrel']
  omega

theorem IsParent.length_lt {above : Bytes} (h : IsParent above p) (hne : p ≠ [])
    (hrel : isAbsolute p = false) : above.length < p.length := by
  cases h with
  | nameless k =>
      cases k with
      | zero => exact absurd rfl hne
      | succ k => cases hrel
  | single hname _ => exact List.length_pos_of_ne_nil hname
  | ofRoot k _ _ => cases hrel
  | below _ _ k _ =>
      simp only [slashes, List.length_append, List.length_replicate]
      omega

theorem ancestors_nil : ancestors [] = [] := by
  rw [ancestors]
  rfl

theorem ancestors_of_isParent {above : Bytes} (h : IsParent above p)
    (hlt : above.length < p.length) : ancestors p = p :: ancestors above := by
  have hne : p ≠ [] := by
    rintro rfl
    cases hlt
  rw [ancestors, if_neg (by simpa using hne), h.parent_eq, if_pos hlt]

/-- Seen from a directory a relative path has its own levels and then those of the directory. -/
theorem ancestors_join {c : Bytes} (hc : Plain c) (hne : p ≠ []) (hrel : isAbsolute p = false) :
    ancestors (join c p) = (ancestors p).map (join c) ++ ancestors c := by
  have hcne : c ≠ [] := hc.ne_nil
  induction hlength : p.length using Nat.strong_induction_on generalizing p with
  | h n ih =>
      have hparent := isParent_parent p
      have hlt := hparent.length_lt hne hrel
      have hjoin := hparent.join hc hne hrel
      rw [ancestors_of_isParent hparent hlt, List.map_cons, List.cons_append]
      by_cases habove : parent p = []
      · rw [if_pos habove] at hjoin
        have hshort : c.length < (join c p).length := by
          have := List.length_pos_of_ne_nil hne
          have := length_le_joint c
          rw [length_join hcne hrel]
          omega
        rw [ancestors_of_isParent hjoin hshort, habove, ancestors_nil]
        rfl
      · rw [if_neg habove] at hjoin
        have hrelative : isAbsolute (parent p) = false := by
          rw [hparent.isAbsolute_eq, hrel]
        rw [ancestors_of_isParent hjoin (length_join_lt hcne hrelative hrel hlt)]
        rw [ih _ (hlength ▸ hlt) habove hrelative rfl]

theorem parent_join {c : Bytes} (hc : Plain c) (hne : p ≠ []) (hrel : isAbsolute p = false) :
    parent (join c p) = if parent p = [] then c else join c (parent p) :=
  ((isParent_parent p).join hc hne hrel).parent_eq

theorem ancestors_parent_join {c : Bytes} (hc : Plain c) (hne : p ≠ [])
    (hrel : isAbsolute p = false) :
    ancestors (parent (join c p)) = (ancestors (parent p)).map (join c) ++ ancestors c := by
  rw [parent_join hc hne hrel]
  split
  · rename_i habove
    rw [habove, ancestors_nil]
    rfl
  · rename_i habove
    exact ancestors_join hc habove ((isParent_parent p).isAbsolute_eq.trans hrel)

theorem names_joint (c s : Bytes) : names (joint c ++ s) = names c ++ names s := by
  rw [joint]
  split
  · rename_i hend
    obtain ⟨front, rfl⟩ := List.getLast?_eq_some_iff.mp (beq_iff_eq.mp hend)
    rw [List.append_assoc, List.singleton_append, names_append, names_append, names_nil,
      List.append_nil]
  · rw [List.append_assoc, List.singleton_append, names_append]

end Path

namespace Disk

/-- A name that an entry can bear. -/
structure ProperName (name : Bytes) : Prop where
  ne_nil : name ≠ []
  slash : Byte.slash ∉ name
  nul : Byte.nul ∉ name
  dots : Path.isDots name = false
  short : name.length ≤ longestName

/-- The current directory is there, below directories, under names that entries can bear. -/
structure Standing (d : Disk) : Prop where
  names : ∀ name ∈ d.current, ProperName name
  directories : ∀ front, front <+: d.current → d.tree.find? front = some .directory

theorem properName_iff (name : Bytes) : ProperName name ↔
    name ≠ [] ∧ Byte.slash ∉ name ∧ Byte.nul ∉ name ∧ Path.isDots name = false ∧
      name.length ≤ longestName :=
  ⟨fun h => ⟨h.ne_nil, h.slash, h.nul, h.dots, h.short⟩,
    fun ⟨hne, hslash, hnul, hdots, hshort⟩ => ⟨hne, hslash, hnul, hdots, hshort⟩⟩

instance (name : Bytes) : Decidable (ProperName name) :=
  decidable_of_iff _ (properName_iff name).symm

theorem standing_iff (d : Disk) : d.Standing ↔
    (∀ name ∈ d.current, ProperName name) ∧
      ∀ front ∈ d.current.inits, d.tree.find? front = some .directory := by
  simp only [List.mem_inits]
  exact ⟨fun h => ⟨h.names, h.directories⟩, fun h => ⟨h.1, h.2⟩⟩

instance (d : Disk) : Decidable d.Standing := decidable_of_iff _ (standing_iff d).symm

theorem walk_of_directories {t : FileTree} {place : Place} {names : List Bytes}
    (hnames : ∀ name ∈ names, ProperName name)
    (h : ∀ front, front <+: names → t.find? (place ++ front) = some .directory) :
    walk t place names = .ok (place ++ names) := by
  induction names generalizing place with
  | nil => rw [walk, List.append_nil]
  | cons name names ih =>
      rw [List.forall_mem_cons] at hnames
      have hdots := hnames.1.dots
      simp only [Path.isDots, Bool.or_eq_false_iff, beq_eq_false_iff_ne] at hdots
      have hplace : t.find? place = some .directory := by
        have := h [] List.nil_prefix
        rwa [List.append_nil] at this
      have hnext : t.find? (place ++ [name]) = some .directory :=
        h [name] (List.prefix_append [name] names)
      have hrest : walk t (place ++ [name]) names = .ok (place ++ [name] ++ names) := by
        apply ih hnames.2
        intro front hfront
        rw [List.append_assoc]
        apply h
        exact (List.prefix_append_right_inj [name]).mpr hfront
      simp only [walk, hplace, hdots.1, hdots.2, if_false, Nat.not_lt.mpr hnames.1.short, hnext,
        Option.isNone_some, Bool.false_eq_true, hrest, List.append_assoc, List.singleton_append]

section
variable {place : Place} (h : ∀ name ∈ place, ProperName name)
include h

theorem names_pathOf : Path.names (pathOf place) = place := by
  have hflat : Path.names (place.flatMap (Byte.slash :: ·)) = place := by
    induction place using List.reverseRecOn with
    | nil => exact Path.names_nil
    | append_singleton place name ih =>
        rw [List.forall_mem_append, List.forall_mem_singleton] at h
        rw [List.flatMap_append, List.flatMap_singleton, Path.names_append, ih h.1,
          Path.names_of_slash_not_mem h.2.ne_nil h.2.slash]
  rw [pathOf]
  split
  · rename_i hempty
    rw [List.isEmpty_iff.mp hempty]
    exact Path.names_slashes 1
  · exact hflat

theorem plain_pathOf : Path.Plain (pathOf place) := by
  rcases List.eq_nil_or_concat' place with rfl | ⟨front, name, rfl⟩
  · exact .inl rfl
  · have hname := h name (by simp)
    right
    have hpath : pathOf (front ++ [name]) =
        front.flatMap (Byte.slash :: ·) ++ [Byte.slash] ++ name := by
      simp [pathOf]
    rw [hpath]
    refine ⟨?_, ?_⟩
    · cases front with
      | nil => rfl
      | cons first front => rfl
    · rw [Path.endsWithSlash_append _ hname.ne_nil,
        Path.endsWithSlash_of_slash_not_mem hname.slash]

theorem nul_not_mem_pathOf : Byte.nul ∉ pathOf place := by
  rw [pathOf]
  split
  · decide
  · intro hmem
    obtain ⟨name, hname, hbyte⟩ := List.mem_flatMap.mp hmem
    rcases List.mem_cons.mp hbyte with hslash | hnul
    · cases hslash
    · exact (h name hname).nul hnul

end

theorem length_systemPath_le (path : Bytes) : (systemPath path).length ≤ path.length :=
  (List.takeWhile_sublist _).length_le

section
variable {d : Disk} (hd : d.Standing)
include hd

theorem Standing.walk_eq : walk d.tree [] d.current = .ok d.current :=
  walk_of_directories hd.names hd.directories

theorem Standing.plain : Path.Plain d.currentPath := plain_pathOf hd.names

theorem Standing.isAbsolute : Path.isAbsolute d.currentPath = true := by
  rcases hd.plain with hroot | ⟨habsolute, _⟩
  · rw [hroot]
    rfl
  · exact habsolute

/-- Where a relative path leads, it leads from the root too. -/
theorem Standing.resolve_join {path : Bytes} (hrel : Path.isAbsolute path = false)
    (hne : systemPath path ≠ []) :
    d.resolve (Path.join d.currentPath path) = d.resolve path := by
  have hnul : Byte.nul ∉ Path.joint d.currentPath := by
    rw [Path.joint]
    split
    · exact nul_not_mem_pathOf hd.names
    · rw [List.mem_append, not_or]
      exact ⟨nul_not_mem_pathOf hd.names, by decide⟩
  have hsteps : steps (Path.joint d.currentPath ++ systemPath path) =
      d.current ++ steps (systemPath path) := by
    rw [steps, Path.names_joint, Path.endsWithSlash_append _ hne, currentPath,
      names_pathOf hd.names, List.append_assoc]
    rfl
  have horigin : d.origin (Path.joint d.currentPath ++ systemPath path) = [] := by
    have habsolute : Path.isAbsolute (Path.joint d.currentPath) = true := by
      rw [Path.isAbsolute_joint hd.plain.ne_nil, hd.isAbsolute]
    rw [origin, Path.isAbsolute_append (Path.ne_nil_of_isAbsolute habsolute), if_pos habsolute]
  have horigin' : d.origin (systemPath path) = d.current := by
    rw [origin_systemPath, origin, hrel]
    rfl
  rw [Path.join_eq hd.plain.ne_nil hrel]
  simp only [resolve, systemPath_append_of_nul_not_mem hnul, hsteps, horigin, horigin']
  rw [walk_append, hd.walk_eq]
  simp [hne, Except.bind]

theorem Standing.locate_join {path : Bytes} (hrel : Path.isAbsolute path = false)
    (hne : systemPath path ≠ [])
    (hshort : (Path.join d.currentPath path).length ≤ longestPath) :
    d.locate (Path.join d.currentPath path) = d.locate path := by
  have hlong := length_systemPath_le (Path.join d.currentPath path)
  have hpath := length_systemPath_le path
  have hlength : path.length ≤ (Path.join d.currentPath path).length := by
    rw [Path.length_join hd.plain.ne_nil hrel]
    omega
  rw [locate, locate, if_neg (by omega), if_neg (by omega), hd.resolve_join hrel hne]

theorem Standing.locate_current (hshort : d.currentPath.length ≤ longestPath) :
    d.locate d.currentPath = .ok d.current := by
  have hnul : Byte.nul ∉ d.currentPath := nul_not_mem_pathOf hd.names
  have horigin : d.origin d.currentPath = [] := by
    rw [origin, hd.isAbsolute]
    rfl
  have hwalk : walk d.tree [] (steps d.currentPath) = .ok d.current := by
    rw [steps, currentPath, names_pathOf hd.names]
    split
    · exact walk_dot_iff.mpr ⟨hd.walk_eq, hd.directories d.current List.prefix_rfl⟩
    · rw [List.append_nil]
      exact hd.walk_eq
  simp [locate, resolve, systemPath_of_nul_not_mem hnul, Nat.not_lt.mpr hshort, horigin, hwalk,
    hd.plain.ne_nil]

end

end Disk

end Linewise
