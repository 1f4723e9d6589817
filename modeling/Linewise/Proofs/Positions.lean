import Mathlib.Data.List.Basic
/-!
Lists position by position: what each element gives together with the elements before it, and the
elements from one position to another.
-/
namespace Linewise

variable {α β : Type}

/-- One more element adds what it gives after all the others. -/
theorem filterMap_zipIdx_concat (f : List α → α → Option β) (xs : List α) (x : α) :
    (xs ++ [x]).zipIdx.filterMap (fun e => f ((xs ++ [x]).take e.2) e.1) =
      xs.zipIdx.filterMap (fun e => f (xs.take e.2) e.1) ++ (f xs x).toList := by
  rw [List.zipIdx_append, List.filterMap_append]
  congr 1
  · apply List.filterMap_congr
    intro e he
    have hlt : e.2 < xs.length := List.snd_lt_of_mem_zipIdx he
    rw [List.take_append_of_le_length (Nat.le_of_lt hlt)]
  · cases h : f xs x with
    | none => simp [h]
    | some b => simp [h]

/-- The elements of a list from one position to another are those left between the two. -/
theorem filter_zipIdx_between (xs : List α) (k first last : Nat) :
    ((xs.zipIdx k).filter fun e => first ≤ e.2 ∧ e.2 ≤ last).map (·.1) =
      (xs.drop (first - k)).take (last + 1 - max first k) := by
  induction xs generalizing k with
  | nil => simp
  | cons x xs ih =>
      rw [List.zipIdx_cons]
      by_cases hfirst : first ≤ k
      · have hnow : first - k = 0 ∧ max first k = k := by omega
        have hnext : first - (k + 1) = 0 ∧ max first (k + 1) = k + 1 := by omega
        have hrest := ih (k + 1)
        rw [hnext.1, hnext.2] at hrest
        rw [hnow.1, hnow.2]
        by_cases hlast : k ≤ last
        · have hcount : last + 1 - k = last + 1 - (k + 1) + 1 := by omega
          rw [List.filter_cons_of_pos (by simp [hfirst, hlast]), List.map_cons, hrest, hcount]
          rfl
        · have hcount : last + 1 - k = 0 ∧ last + 1 - (k + 1) = 0 := by omega
          rw [List.filter_cons_of_neg (by simp [hlast]), hrest, hcount.1, hcount.2]
          rfl
      · have hcount : first - k = first - (k + 1) + 1 ∧ max first k = max first (k + 1) := by omega
        rw [List.filter_cons_of_neg (by simp [hfirst]), ih, hcount.1, hcount.2, List.drop_succ_cons]

/-- The elements up to some positions away from one: those before it, the one, and those behind. -/
theorem take_drop_around {xs : List α} {i : Nat} {x : α} (h : xs[i]? = some x) (n : Nat) :
    (xs.drop (i - n)).take (min (i + n) (xs.length - 1) + 1 - (i - n)) =
      (xs.take i).drop (i - n) ++ x :: (xs.drop (i + 1)).take n := by
  obtain ⟨hi, rfl⟩ := List.getElem?_eq_some_iff.mp h
  have hfront : ((xs.take i).drop (i - n)).length = i - (i - n) := by
    rw [List.length_drop, List.length_take_of_le (Nat.le_of_lt hi)]
  have hdrop : xs.drop (i - n) = (xs.take i).drop (i - n) ++ xs.drop i := by
    conv_lhs => rw [← List.take_append_drop i xs]
    rw [List.drop_append_of_le_length]
    rw [List.length_take_of_le (Nat.le_of_lt hi)]
    exact Nat.sub_le i n
  have hcount : min (i + n) (xs.length - 1) + 1 - (i - n) =
      ((xs.take i).drop (i - n)).length + (min n (xs.drop (i + 1)).length + 1) := by
    rw [hfront, List.length_drop]
    omega
  rw [hdrop, hcount, List.take_length_add_append, List.drop_eq_getElem_cons hi,
    List.take_succ_cons, ← List.take_eq_take_min]

/-- Where nothing is put between them, the parts of a list's elements come one after the other. -/
theorem flatMap_zipIdx_of_nil (g : α → List β) {between : Nat → List β} {xs : List α} {k : Nat}
    (h : ∀ j < xs.length, between (k + j) = []) :
    (xs.zipIdx k).flatMap (fun e => g e.1 ++ between e.2) = xs.flatMap g := by
  induction xs generalizing k with
  | nil => rfl
  | cons x xs ih =>
      have hhead : between k = [] := h 0 (Nat.succ_pos _)
      have htail : ∀ j < xs.length, between (k + 1 + j) = [] := by
        intro j hj
        rw [Nat.add_assoc, Nat.add_comm 1 j]
        exact h (j + 1) (Nat.succ_lt_succ hj)
      rw [List.zipIdx_cons, List.flatMap_cons, List.flatMap_cons, ih htail, hhead, List.append_nil]

end Linewise
