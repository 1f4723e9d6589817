import Linewise.Settings.Table
import Mathlib.Data.List.Nodup
/-!
Tables as maps. Their keys are sorted, so a key stands in a table once, and what a table holds is
told by its look-ups alone.
-/
namespace Linewise.Settings.Table

/-- The keys strictly increase. -/
def Sorted (t : Table) : Prop := t.Pairwise fun e f => e.1 < f.1

variable {t upper : Table}

theorem key_of_mem_put {key : Bytes} {value : Value} {e : Bytes × Value}
    (he : e ∈ t.put key value) : e.1 = key ∨ e ∈ t := by
  induction t with
  | nil =>
      obtain rfl := List.mem_singleton.mp he
      exact .inl rfl
  | cons first rest ih =>
      rw [put] at he
      split_ifs at he with heq hlt
      · rcases List.mem_cons.mp he with rfl | he
        · exact .inl rfl
        · exact .inr (List.mem_cons_of_mem _ he)
      · rcases List.mem_cons.mp he with rfl | he
        · exact .inl rfl
        · exact .inr he
      · rcases List.mem_cons.mp he with rfl | he
        · exact .inr List.mem_cons_self
        · exact (ih he).imp_right (List.mem_cons_of_mem _)

theorem Sorted.put (h : t.Sorted) (key : Bytes) (value : Value) : (t.put key value).Sorted := by
  induction t with
  | nil => exact List.pairwise_singleton _ _
  | cons first rest ih =>
      obtain ⟨hfirst, hrest⟩ := List.pairwise_cons.mp h
      rw [Table.put]
      split_ifs with heq hlt
      · subst heq
        exact List.pairwise_cons.mpr ⟨hfirst, hrest⟩
      · refine List.pairwise_cons.mpr ⟨fun e he => ?_, h⟩
        rcases List.mem_cons.mp he with rfl | he
        · exact hlt
        · exact Std.lt_trans hlt (hfirst e he)
      · refine List.pairwise_cons.mpr ⟨fun e he => ?_, ih hrest⟩
        rcases key_of_mem_put he with hkey | he
        · rw [hkey]
          exact Std.lt_of_le_of_ne (Std.not_lt.mp hlt) (Ne.symm heq)
        · exact hfirst e he

theorem Sorted.nodup_keys (h : t.Sorted) : (t.map (·.1)).Nodup := by
  rw [List.Nodup, List.pairwise_map]
  exact h.imp Std.ne_of_lt

theorem get?_cons (k : Bytes) (v : Value) (rest : Table) (key : Bytes) :
    get? ((k, v) :: rest) key = if k = key then some v else get? rest key := by
  rw [get?, get?, List.find?_cons]
  by_cases h : k = key
  · simp [h]
  · simp [h]

theorem isSome_get?_iff (t : Table) (key : Bytes) :
    (t.get? key).isSome = true ↔ key ∈ t.map (·.1) := by
  rw [get?, Option.isSome_map, List.find?_isSome, List.mem_map]
  simp only [decide_eq_true_eq]

theorem get?_filter (t : Table) (p : Bytes → Bool) (key : Bytes) :
    get? (t.filter fun e => p e.1) key = if p key then t.get? key else none := by
  rw [get?, List.find?_filter]
  by_cases hp : p key = true
  · rw [if_pos hp, get?]
    congr 2
    funext e
    by_cases he : e.1 = key
    · simp [he, hp]
    · simp [he]
  · rw [if_neg hp, Option.map_eq_none_iff, List.find?_eq_none]
    intro e _
    simp only [decide_eq_true_eq]
    rintro ⟨hpe, rfl⟩
    exact hp hpe

theorem Sorted.overlay (h : t.Sorted) (upper : Table) : (upper.overlay t).Sorted := by
  induction upper generalizing t with
  | nil => exact h
  | cons first rest ih => exact ih (h.put first.1 first.2)

/-- Key by key, the entries of the upper table hide those of the lower one. -/
theorem get?_overlay (h : upper.Sorted) (lower : Table) (key : Bytes) :
    (upper.overlay lower).get? key = (upper.get? key).or (lower.get? key) := by
  induction upper generalizing lower with
  | nil => rfl
  | cons first rest ih =>
      obtain ⟨k, v⟩ := first
      obtain ⟨hfirst, hrest⟩ := List.pairwise_cons.mp h
      have hoverlay : overlay ((k, v) :: rest) lower = overlay rest (lower.put k v) := rfl
      rw [hoverlay, ih hrest, get?_put, get?_cons]
      by_cases hkey : k = key
      · subst hkey
        have hnone : get? rest k = none := by
          rw [← Option.not_isSome_iff_eq_none, isSome_get?_iff]
          intro hmem
          obtain ⟨e, he, hek⟩ := List.mem_map.mp hmem
          exact Std.ne_of_lt (hfirst e he) hek.symm
        rw [hnone, if_pos rfl, if_pos rfl]
        rfl
      · rw [if_neg hkey, if_neg (Ne.symm hkey)]

end Linewise.Settings.Table
