import Linewise.Proofs.Files.Spelling
/-!
The levels of a path. They are what a way up through parents comes to, and with the slashes taken
out they are the fronts of the path's names, longest first.
-/
namespace Linewise.Path

/-- The way up from a path. It ends at a level that is its own parent, or when nothing is left. -/
inductive Climb : Bytes → List Bytes → Prop
  | ended : Climb [] []
  | fixed {p} (hne : p ≠ []) (hfixed : parent p = p) : Climb p [p]
  | up {p levels} (hne : p ≠ []) (hup : parent p ≠ p)
      (h : Climb (parent p) levels) : Climb p (p :: levels)

variable {p above : Bytes} {levels : List Bytes}

theorem IsParent.eq_or_length_lt (h : IsParent above p) :
    (above = p ∧ names p = []) ∨ above.length < p.length := by
  cases h with
  | nameless k => exact .inl ⟨rfl, names_slashes k⟩
  | single hne _ => exact .inr (List.length_pos_of_ne_nil hne)
  | ofRoot k hne _ =>
      right
      have hname := List.length_pos_of_ne_nil hne
      simp only [slashes, List.length_append, List.length_replicate, List.length_singleton]
      omega
  | below _ _ k _ =>
      right
      simp only [slashes, List.length_append, List.length_replicate]
      omega

/-- The way up ends for every path, and its levels are the path's ancestors. -/
theorem climb_ancestors (p : Bytes) : Climb p (ancestors p) := by
  induction p using ancestors.induct with
  | case1 p hempty =>
      rw [ancestors, if_pos hempty, List.isEmpty_iff.mp hempty]
      exact .ended
  | case2 p hne hlt ih =>
      rw [ancestors, if_neg hne, if_pos hlt]
      refine .up (by simpa using hne) ?_ ih
      intro hself
      rw [hself] at hlt
      exact Nat.lt_irrefl _ hlt
  | case3 p hne hlt =>
      rw [ancestors, if_neg hne, if_neg hlt]
      have hself := (isParent_parent p).eq_or_length_lt.resolve_right hlt
      exact .fixed (by simpa using hne) hself.1

theorem names_slashes_append (k : Nat) (rest : Bytes) :
    names (slashes k ++ rest) = names rest := by
  induction k with
  | zero => rfl
  | succ k ih =>
      have h := names_append [] (slashes k ++ rest)
      rwa [names_nil, ih] at h

theorem names_append_slashes (front rest : Bytes) (k : Nat) :
    names (front ++ slashes (k + 1) ++ rest) = names front ++ names rest := by
  rw [List.append_assoc, ← names_slashes_append k rest]
  exact names_append front (slashes k ++ rest)

theorem IsParent.names_eq (h : IsParent above p) :
    names above = if endsWithSlash p then names p else (names p).dropLast := by
  cases h with
  | nameless k => simp [names_slashes]
  | single hne hname =>
      rw [endsWithSlash_of_slash_not_mem hname, names_of_slash_not_mem hne hname]
      exact names_nil
  | ofRoot k hne hname =>
      rw [endsWithSlash_append _ hne, endsWithSlash_of_slash_not_mem hname, names_slashes_append,
        names_of_slash_not_mem hne hname]
      exact names_slashes 1
  | @below _ hne hend k name hname =>
      rw [names_append_slashes]
      by_cases hempty : name = []
      · rw [hempty, List.append_nil, endsWithSlash_append _ (by simp [slashes]),
          endsWithSlash_slashes, names_nil, List.append_nil, if_pos rfl]
      · rw [endsWithSlash_append _ hempty, endsWithSlash_of_slash_not_mem hname,
          names_of_slash_not_mem hempty hname]
        simp

theorem names_parent (p : Bytes) :
    names (parent p) = if endsWithSlash p then names p else (names p).dropLast :=
  (isParent_parent p).names_eq

theorem names_of_parent_eq (h : parent p = p) : names p = [] := by
  rcases (isParent_parent p).eq_or_length_lt with ⟨_, hnames⟩ | hlt
  · exact hnames
  · rw [h] at hlt
    exact absurd hlt (Nat.lt_irrefl _)

theorem prefix_dropLast {α : Type} {front l : List α} (h : front <+: l) (hne : front ≠ l) :
    front <+: l.dropLast := by
  obtain ⟨back, rfl⟩ := h
  have hback : back ≠ [] := by
    rintro rfl
    exact hne (List.append_nil front).symm
  rw [List.dropLast_append_of_ne_nil hback]
  exact List.prefix_append _ _

namespace Climb

theorem names_front (h : Climb p levels) : ∀ level ∈ levels, names level <+: names p := by
  induction h with
  | ended => simp
  | fixed hne hfixed => simp
  | @up p levels hne hup h ih =>
      have hparent : names (parent p) <+: names p := by
        rw [names_parent]
        split
        · exact List.prefix_rfl
        · exact List.dropLast_prefix _
      rw [List.forall_mem_cons]
      exact ⟨List.prefix_rfl, fun level hlevel => (ih level hlevel).trans hparent⟩

/-- The way up never leads further down. -/
theorem pairwise (h : Climb p levels) :
    levels.Pairwise fun lower upper => names upper <+: names lower := by
  induction h with
  | ended => exact .nil
  | fixed hne hfixed => exact List.pairwise_singleton _ _
  | up hne hup h ih =>
      have hall := (Climb.up hne hup h).names_front
      exact .cons (List.forall_mem_cons.mp hall).2 ih

/-- From an absolute path the way up passes every front of its names. -/
theorem exists_level (h : Climb p levels) (habsolute : isAbsolute p = true) {front : List Bytes}
    (hfront : front <+: names p) : ∃ level ∈ levels, names level = front := by
  induction h with
  | ended => cases habsolute
  | @fixed p hne hfixed =>
      have hnames := names_of_parent_eq hfixed
      rw [hnames, List.prefix_nil] at hfront
      exact ⟨p, List.mem_singleton_self p, hnames.trans hfront.symm⟩
  | @up p levels hne hup h ih =>
      by_cases hself : front = names p
      · exact ⟨p, List.mem_cons_self, hself.symm⟩
      · have hparent : front <+: names (parent p) := by
          rw [names_parent]
          split
          · exact hfront
          · exact prefix_dropLast hfront hself
        have habove : isAbsolute (parent p) = true := by
          rw [(isParent_parent p).isAbsolute_eq, habsolute]
        obtain ⟨level, hmem, hnames⟩ := ih habove hparent
        exact ⟨level, List.mem_cons_of_mem p hmem, hnames⟩

end Climb

end Linewise.Path
