import Linewise.Display
import Mathlib.Algebra.Order.BigOperators.Group.List
import Mathlib.Algebra.Order.Ring.Nat
/-!
The characters of any text. Reading takes one to four bytes at a time and never more than there are,
so the characters tile the text; and none has more columns than bytes. The width of a text up to a
byte counts every character that starts before the byte as a whole.
-/
namespace Linewise

namespace Glyph

/-- Characters with the position at which each one starts. -/
def placed (start : Nat) : List Glyph → List (Nat × Glyph)
  | [] => []
  | g :: rest => (start, g) :: placed (start + g.size) rest

end Glyph

/-- The columns of the characters of a text that start before a byte. -/
def Bytes.width (s : Bytes) (limit : Nat) : Nat :=
  (((Glyph.placed 0 (Glyph.read s)).filter (·.1 < limit)).map fun e => Glyph.columns e.2.code).sum

namespace Glyph

theorem continuation?_lt {s : Bytes} {index c : Nat} (h : continuation? s index = some c) :
    index < s.length := by
  unfold continuation? at h
  split at h
  · exact (List.getElem?_eq_some_iff.mp ‹_›).1
  · cases h

/-- What the first bytes of a text are read as: a byte of its own, a malformed byte, or a sequence of
bytes all of which are there. -/
theorem first_cases (b : UInt8) (rest : Bytes) :
    (b < 0x80 ∧ first b rest = ⟨b.toNat, 1⟩) ∨ first b rest = malformed ∨
      (2 ≤ (first b rest).size ∧ (first b rest).size ≤ 4 ∧
        (first b rest).size ≤ rest.length + 1) := by
  unfold first
  split
  · exact .inl ⟨‹_›, rfl⟩
  · right
    split
    · split
      · have h₁ := continuation?_lt ‹_›
        refine .inr ⟨Nat.le_refl 2, by simp, ?_⟩
        dsimp only
        omega
      · exact .inl rfl
    · split
      · split
        · have h₂ := continuation?_lt ‹continuation? rest 1 = _›
          refine .inr ⟨by simp, by simp, ?_⟩
          dsimp only
          omega
        · exact .inl rfl
      · split
        · split
          · have h₃ := continuation?_lt ‹continuation? rest 2 = _›
            refine .inr ⟨by simp, Nat.le_refl 4, ?_⟩
            dsimp only
            omega
          · exact .inl rfl
        · exact .inl rfl

theorem first_size_bounds (b : UInt8) (rest : Bytes) :
    1 ≤ (first b rest).size ∧ (first b rest).size ≤ 4 ∧ (first b rest).size ≤ rest.length + 1 := by
  rcases first_cases b rest with ⟨_, h⟩ | h | h
  · rw [h]
    simp
  · rw [h, malformed]
    simp
  · exact ⟨by omega, h.2⟩

theorem columns_le_two (code : Nat) : columns code ≤ 2 := by
  unfold columns
  split_ifs <;> decide

theorem columns_le_one {code : Nat} (h : code < 0x1100) : columns code ≤ 1 := by
  have hwide : within wide code = false := by
    simp only [within, wide, List.any_cons, List.any_nil, Bool.or_false]
    simp
    omega
  unfold columns
  rw [hwide]
  split_ifs <;> simp_all

theorem columns_first_le (b : UInt8) (rest : Bytes) :
    columns (first b rest).code ≤ (first b rest).size := by
  rcases first_cases b rest with ⟨hb, h⟩ | h | h
  · rw [h]
    have hlt : b.toNat < 0x80 := UInt8.lt_iff_toNat_lt.mp hb
    exact columns_le_one (by dsimp only; omega)
  · rw [h]
    decide
  · exact Nat.le_trans (columns_le_two _) h.1

theorem mem_readFrom {g : Glyph} {skip : Nat} {s : Bytes} (h : g ∈ readFrom skip s) :
    ∃ b rest, g = first b rest := by
  fun_induction readFrom skip s with
  | case1 => cases h
  | case2 _ _ _ ih => exact ih h
  | case3 b rest ih =>
      rcases List.mem_cons.mp h with rfl | h
      · exact ⟨b, rest, rfl⟩
      · exact ih h

/-- The characters tile the bytes that they are read from. -/
theorem sum_size_readFrom (skip : Nat) (s : Bytes) :
    ((readFrom skip s).map (·.size)).sum = s.length - skip := by
  fun_induction readFrom skip s with
  | case1 => simp
  | case2 skip b rest ih =>
      rw [ih, List.length_cons]
      omega
  | case3 b rest ih =>
      have hsize := first_size_bounds b rest
      rw [List.map_cons, List.sum_cons, ih, List.length_cons]
      omega

theorem readFrom_eq_drop (skip : Nat) (s : Bytes) : readFrom skip s = read (s.drop skip) := by
  induction s generalizing skip with
  | nil => cases skip with
    | zero => rfl
    | succ skip => rfl
  | cons b rest ih =>
      cases skip with
      | zero => rfl
      | succ skip => exact ih skip

theorem columnsBefore_zero (gs : List Glyph) : columnsBefore 0 gs = 0 := by
  cases gs with
  | nil => rfl
  | cons g gs => exact if_pos rfl

/-- From the start of a character on, the characters before it are counted first. -/
theorem columnsBefore_append {front : List Glyph} (hfront : ∀ g ∈ front, 1 ≤ g.size)
    (gs : List Glyph) (limit : Nat) :
    columnsBefore ((front.map (·.size)).sum + limit) (front ++ gs) =
      (front.map fun g => columns g.code).sum + columnsBefore limit gs := by
  induction front with
  | nil => simp
  | cons g front ih =>
      rw [List.forall_mem_cons] at hfront
      rw [List.map_cons, List.sum_cons, List.cons_append, columnsBefore, if_neg (by omega),
        Nat.add_assoc, Nat.add_sub_cancel_left, ih hfront.2, List.map_cons, List.sum_cons,
        Nat.add_assoc]

theorem columnsBefore_mono (gs : List Glyph) {m n : Nat} (h : m ≤ n) :
    columnsBefore m gs ≤ columnsBefore n gs := by
  induction gs generalizing m n with
  | nil => exact Nat.le_refl 0
  | cons g gs ih =>
      rw [columnsBefore, columnsBefore]
      split_ifs with hm hn
      · exact Nat.le_refl 0
      · exact Nat.zero_le _
      · omega
      · exact Nat.add_le_add_left (ih (Nat.sub_le_sub_right h g.size)) _

theorem columnsBefore_le_sum (limit : Nat) (gs : List Glyph) :
    columnsBefore limit gs ≤ (gs.map fun g => columns g.code).sum := by
  induction gs generalizing limit with
  | nil => exact Nat.le_refl 0
  | cons g gs ih =>
      rw [columnsBefore, List.map_cons, List.sum_cons]
      split_ifs with hlimit
      · exact Nat.zero_le _
      · exact Nat.add_le_add_left (ih _) _

theorem le_of_mem_placed {start : Nat} {gs : List Glyph} {e : Nat × Glyph}
    (h : e ∈ placed start gs) : start ≤ e.1 := by
  induction gs generalizing start with
  | nil => cases h
  | cons g gs ih =>
      rcases List.mem_cons.mp h with rfl | h
      · exact Nat.le_refl _
      · exact Nat.le_trans (Nat.le_add_right _ _) (ih h)

theorem columnsBefore_eq (start limit : Nat) (gs : List Glyph) :
    columnsBefore limit gs =
      (((placed start gs).filter (·.1 < start + limit)).map fun e => columns e.2.code).sum := by
  induction gs generalizing start limit with
  | nil => rfl
  | cons g gs ih =>
      rw [columnsBefore]
      split_ifs with hlimit
      · have hnone : (placed start (g :: gs)).filter (·.1 < start + limit) = [] := by
          rw [List.filter_eq_nil_iff]
          intro e he
          have hstart := le_of_mem_placed he
          simp only [decide_eq_true_eq]
          omega
        rw [hnone]
        rfl
      · have hkept : start < start + limit := by omega
        rw [placed, List.filter_cons_of_pos (by simpa using hkept), List.map_cons, List.sum_cons,
          ih (start + g.size) (limit - g.size)]
        -- Where the character ends behind the limit, both bounds leave out all that follow.
        by_cases hends : g.size ≤ limit
        · rw [Nat.add_assoc, Nat.add_sub_cancel' hends]
        · congr 3
          apply List.filter_congr
          intro e he
          have hstart := le_of_mem_placed he
          rw [decide_eq_decide]
          omega

end Glyph

namespace Bytes

theorem width_eq (s : Bytes) (limit : Nat) :
    s.width limit = Glyph.columnsBefore limit (Glyph.read s) := by
  rw [Glyph.columnsBefore_eq 0, Nat.zero_add]
  rfl

theorem columnsBetween_zero (s : Bytes) (limit : Nat) : s.columnsBetween 0 limit = s.width limit := by
  rw [columnsBetween, List.drop_zero, Nat.sub_zero, width_eq]

theorem width_mono (s : Bytes) {m n : Nat} (h : m ≤ n) : s.width m ≤ s.width n := by
  rw [width_eq, width_eq]
  exact Glyph.columnsBefore_mono _ h

/-- A text is not wider than it is long. -/
theorem width_le_length (s : Bytes) (limit : Nat) : s.width limit ≤ s.length := by
  have hcolumns : ∀ g ∈ Glyph.read s, Glyph.columns g.code ≤ g.size := by
    intro g hg
    obtain ⟨b, rest, rfl⟩ := Glyph.mem_readFrom hg
    exact Glyph.columns_first_le b rest
  calc s.width limit = Glyph.columnsBefore limit (Glyph.read s) := s.width_eq limit
    _ ≤ ((Glyph.read s).map fun g => Glyph.columns g.code).sum := Glyph.columnsBefore_le_sum _ _
    _ ≤ ((Glyph.read s).map (·.size)).sum := List.sum_le_sum hcolumns
    _ = s.length := Glyph.sum_size_readFrom 0 s

end Bytes
end Linewise
