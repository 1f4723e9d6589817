import Linewise.Files.Path
import Mathlib.Data.List.DropRight
/-!
How a path and its parent are spelled. The parent of a path is found by cutting its text; here it is
said which texts have which parent, so that facts about the levels of a path follow the spelling.
-/
namespace Linewise.Path

def slashes (k : Nat) : Bytes := List.replicate k Byte.slash

theorem names_append (front rest : Bytes) :
    names (front ++ Byte.slash :: rest) = names front ++ names rest := by
  rw [names, List.splitOn_append_cons_self, List.filter_append]
  rfl

theorem names_nil : names [] = [] := by
  simp [names]

theorem names_slashes (k : Nat) : names (slashes k) = [] := by
  induction k with
  | zero => exact names_nil
  | succ k ih =>
      have h := names_append [] (slashes k)
      rwa [names_nil, ih] at h

theorem names_of_slash_not_mem {name : Bytes} (hne : name ≠ []) (h : Byte.slash ∉ name) :
    names name = [name] := by
  simp [names, List.splitOn_eq_singleton h, hne]

theorem isAbsolute_append {front : Bytes} (hne : front ≠ []) (back : Bytes) :
    isAbsolute (front ++ back) = isAbsolute front := by
  rw [isAbsolute, List.head?_append_of_ne_nil _ hne]
  rfl

theorem endsWithSlash_append {back : Bytes} (front : Bytes) (hne : back ≠ []) :
    endsWithSlash (front ++ back) = endsWithSlash back := by
  rw [endsWithSlash, List.getLast?_append_of_ne_nil _ hne]
  rfl

theorem endsWithSlash_slashes (k : Nat) : endsWithSlash (slashes (k + 1)) = true := by
  simp [endsWithSlash, slashes, List.getLast?_replicate]

theorem endsWithSlash_of_slash_not_mem {name : Bytes} (h : Byte.slash ∉ name) :
    endsWithSlash name = false := by
  rw [endsWithSlash, beq_eq_false_iff_ne]
  exact fun hlast => h (List.mem_of_getLast? hlast)

theorem hasNames_append (front back : Bytes) :
    hasNames (front ++ back) = (hasNames front || hasNames back) := List.any_append

theorem hasNames_slashes (k : Nat) : hasNames (slashes k) = false := by
  simp [hasNames, slashes]

theorem hasNames_of_slash_not_mem {name : Bytes} (hne : name ≠ []) (h : Byte.slash ∉ name) :
    hasNames name = true := by
  obtain ⟨b, hb⟩ := List.exists_mem_of_ne_nil name hne
  rw [hasNames, List.any_eq_true]
  exact ⟨b, hb, by rw [bne_iff_ne]; exact fun heq => h (heq ▸ hb)⟩

theorem hasNames_of_endsWithSlash {above : Bytes} (hne : above ≠ [])
    (hend : endsWithSlash above = false) : hasNames above = true := by
  rw [endsWithSlash, List.getLast?_eq_some_getLast hne, beq_eq_false_iff_ne] at hend
  rw [hasNames, List.any_eq_true]
  exact ⟨above.getLast hne, List.getLast_mem hne, by simpa using hend⟩

theorem rdropWhile_append {test : UInt8 → Bool} (front : Bytes) {back : Bytes}
    (h : ∀ b ∈ back, test b) : (front ++ back).rdropWhile test = front.rdropWhile test := by
  rw [List.rdropWhile, List.reverse_append,
    List.dropWhile_append_of_pos (by simpa using h), List.rdropWhile]

theorem dropSlashes_append {above : Bytes} (hend : endsWithSlash above = false) (k : Nat) :
    dropSlashes (above ++ slashes k) = above := by
  have hself : above.rdropWhile (· == Byte.slash) = above := by
    rw [List.rdropWhile_eq_self_iff]
    intro hne
    rw [endsWithSlash, List.getLast?_eq_some_getLast hne] at hend
    simpa using hend
  exact (rdropWhile_append above (by simp [slashes])).trans hself

/-- The path up to its last slash. -/
def dropName (p : Bytes) : Bytes := (p.reverse.dropWhile (· != Byte.slash)).reverse

theorem dropName_append (front : Bytes) {name : Bytes} (h : Byte.slash ∉ name) :
    dropName (front ++ name) = dropName front := by
  refine rdropWhile_append front ?_
  intro b hb
  rw [bne_iff_ne]
  exact fun heq => h (heq ▸ hb)

theorem dropName_of_endsWithSlash {front : Bytes} (h : endsWithSlash front = true) :
    dropName front = front := by
  refine List.rdropWhile_eq_self_iff.mpr ?_
  intro hne
  rw [endsWithSlash, List.getLast?_eq_some_getLast hne] at h
  simpa using h

/-- The path one level up, by the spelling of a path. A path without names is its own parent. -/
inductive IsParent : Bytes → Bytes → Prop
  | nameless (k : Nat) : IsParent (slashes k) (slashes k)
  | single {name : Bytes} (hne : name ≠ []) (hname : Byte.slash ∉ name) : IsParent [] name
  | ofRoot (k : Nat) {name : Bytes} (hne : name ≠ []) (hname : Byte.slash ∉ name) :
      IsParent [Byte.slash] (slashes (k + 1) ++ name)
  | below {above : Bytes} (hne : above ≠ []) (hend : endsWithSlash above = false) (k : Nat)
      {name : Bytes} (hname : Byte.slash ∉ name) :
      IsParent above (above ++ slashes (k + 1) ++ name)

theorem IsParent.parent_eq {above p : Bytes} (h : IsParent above p) : parent p = above := by
  cases h with
  | nameless k => simp [parent, hasNames_slashes]
  | single hne hname =>
      have hdrop : dropName p = [] := dropName_append [] hname
      rw [parent, ← dropName, hdrop, hasNames_of_slash_not_mem hne hname,
        endsWithSlash_of_slash_not_mem hname]
      rfl
  | @ofRoot k name hne hname =>
      have hdrop : dropName (slashes (k + 1) ++ name) = slashes (k + 1) := by
        rw [dropName_append _ hname, dropName_of_endsWithSlash (endsWithSlash_slashes k)]
      rw [parent, ← dropName, hdrop, hasNames_append, hasNames_slashes,
        hasNames_of_slash_not_mem hne hname, endsWithSlash_append _ hne,
        endsWithSlash_of_slash_not_mem hname]
      simp only [Bool.false_or, Bool.not_true, Bool.false_eq_true, if_false, hasNames_slashes]
      rfl
  | @below _ hne hend k name hname =>
      have habove := hasNames_of_endsWithSlash hne hend
      have hslash : endsWithSlash (above ++ slashes (k + 1)) = true := by
        rw [endsWithSlash_append _ (by simp [slashes]), endsWithSlash_slashes]
      have hnames : hasNames (above ++ slashes (k + 1) ++ name) = true := by
        simp only [hasNames_append, habove, Bool.true_or]
      rw [parent, hnames]
      by_cases hempty : name = []
      · rw [hempty, List.append_nil, hslash]
        exact dropSlashes_append hend (k + 1)
      · have hdrop : dropName (above ++ slashes (k + 1) ++ name) = above ++ slashes (k + 1) := by
          rw [dropName_append _ hname, dropName_of_endsWithSlash hslash]
        rw [endsWithSlash_append _ hempty, endsWithSlash_of_slash_not_mem hname, ← dropName, hdrop]
        simp only [Bool.not_true, Bool.false_eq_true, if_false, hasNames_append, habove,
          Bool.true_or, if_true]
        exact dropSlashes_append hend (k + 1)

theorem IsParent.isAbsolute_eq {above p : Bytes} (h : IsParent above p) :
    isAbsolute above = isAbsolute p := by
  cases h with
  | nameless k => rfl
  | single hne hname =>
      have hhead : p.head? ≠ some Byte.slash := fun h => hname (List.mem_of_mem_head? h)
      simp [isAbsolute, hhead]
  | ofRoot k hne hname => rfl
  | below hne hend k hname => rw [List.append_assoc, isAbsolute_append hne]

theorem IsParent.front {above p : Bytes} (h : IsParent above p) : above <+: p := by
  cases h with
  | nameless k => exact List.prefix_rfl
  | single _ _ => exact List.nil_prefix
  | ofRoot k _ _ => exact List.prefix_append [Byte.slash] _
  | below _ _ k _ =>
      rw [List.append_assoc]
      exact List.prefix_append _ _

theorem exists_name (p : Bytes) : ∃ front name, p = front ++ name ∧ Byte.slash ∉ name ∧
    (front = [] ∨ endsWithSlash front = true) := by
  refine ⟨p.rdropWhile (· != Byte.slash), p.rtakeWhile (· != Byte.slash),
    List.rdropWhile_append_rtakeWhile.symm, ?_, ?_⟩
  · intro hmem
    simpa using List.mem_rtakeWhile_imp hmem
  · by_cases hne : p.rdropWhile (· != Byte.slash) = []
    · exact .inl hne
    · right
      rw [endsWithSlash, List.getLast?_eq_some_getLast hne]
      simpa using List.rdropWhile_last_not _ _ hne

theorem exists_slashes (p : Bytes) : ∃ above k, p = above ++ slashes k ∧
    endsWithSlash above = false := by
  refine ⟨p.rdropWhile (· == Byte.slash), (p.rtakeWhile (· == Byte.slash)).length, ?_, ?_⟩
  · have hslashes : p.rtakeWhile (· == Byte.slash) =
        slashes (p.rtakeWhile (· == Byte.slash)).length := by
      refine List.eq_replicate_of_mem ?_
      intro b hb
      simpa using List.mem_rtakeWhile_imp hb
    rw [← hslashes, List.rdropWhile_append_rtakeWhile]
  · by_cases hne : p.rdropWhile (· == Byte.slash) = []
    · rw [hne]
      rfl
    · rw [endsWithSlash, List.getLast?_eq_some_getLast hne]
      simpa using List.rdropWhile_last_not _ _ hne

theorem isParent_parent (p : Bytes) : IsParent (parent p) p := by
  -- Cut off the name at the end, which may be missing, and then the slashes before it.
  obtain ⟨front, name, rfl, hname, hfront⟩ := exists_name p
  obtain ⟨above, k, rfl, hend⟩ := exists_slashes front
  have hexists : ∃ q, IsParent q (above ++ slashes k ++ name) := by
    by_cases habove : above = []
    · rw [habove, List.nil_append]
      by_cases hne : name = []
      · rw [hne, List.append_nil]
        exact ⟨_, .nameless k⟩
      · cases k with
        | zero => exact ⟨_, .single hne hname⟩
        | succ k => exact ⟨_, .ofRoot k hne hname⟩
    · cases k with
      | zero =>
          have hempty : slashes 0 = [] := rfl
          rw [hempty, List.append_nil, hend] at hfront
          simp [habove] at hfront
      | succ k => exact ⟨_, .below habove hend k hname⟩
  obtain ⟨q, hq⟩ := hexists
  rw [hq.parent_eq]
  exact hq

theorem ne_nil_of_mem_ancestors {above p : Bytes} (h : above ∈ ancestors p) : above ≠ [] := by
  induction p using ancestors.induct with
  | case1 p hempty =>
      rw [ancestors, if_pos hempty] at h
      cases h
  | case2 p hne hlt ih =>
      rw [ancestors, if_neg hne, if_pos hlt, List.mem_cons] at h
      rcases h with rfl | h
      · simpa using hne
      · exact ih h
  | case3 p hne hlt =>
      rw [ancestors, if_neg hne, if_neg hlt, List.mem_singleton] at h
      subst h
      simpa using hne

/-- What holds of a path and goes over to parents holds of all that is above the path. -/
theorem ancestors_induction {motive : Bytes → Prop} {p : Bytes} (hself : motive p)
    (hparent : ∀ above q, IsParent above q → motive q → motive above) :
    ∀ q ∈ ancestors p, motive q := by
  intro q hq
  induction p using ancestors.induct with
  | case1 p hempty =>
      rw [ancestors, if_pos hempty] at hq
      cases hq
  | case2 p hne hlt ih =>
      rw [ancestors, if_neg hne, if_pos hlt, List.mem_cons] at hq
      rcases hq with rfl | hq
      · exact hself
      · exact ih (hparent _ _ (isParent_parent p) hself) hq
  | case3 p hne hlt =>
      rw [ancestors, if_neg hne, if_neg hlt, List.mem_singleton] at hq
      exact hq ▸ hself

theorem front_of_mem_ancestors {above p : Bytes} (h : above ∈ ancestors p) : above <+: p :=
  ancestors_induction (motive := (· <+: p)) List.prefix_rfl
    (fun _ _ hparent ih => hparent.front.trans ih) above h

end Linewise.Path
