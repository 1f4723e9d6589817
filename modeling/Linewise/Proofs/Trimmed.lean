import Linewise.Proofs.Listing.Literal
import Mathlib.Data.List.DropRight
/-!
Trimmed texts. A text is blanks, a text that neither starts nor ends with a blank, and blanks again.
There is one such text in the middle, and it is the trimmed one.
-/
namespace Linewise

theorem Blanks.isBlank {s : Bytes} (h : Blanks s) : ∀ b ∈ s, Byte.isBlank b = true :=
  fun b hb => (isBlank_iff b).mpr (h b hb)

theorem blanks_of_isBlank {s : Bytes} (h : ∀ b ∈ s, Byte.isBlank b = true) : Blanks s :=
  fun b hb => (isBlank_iff b).mp (h b hb)

theorem Blanks.append {s t : Bytes} (hs : Blanks s) (ht : Blanks t) : Blanks (s ++ t) :=
  List.forall_mem_append.mpr ⟨hs, ht⟩

theorem not_mem_blanks {s : Bytes} (h : Blanks s) {b : UInt8} (hb : Byte.isBlank b = false) :
    b ∉ s := by
  intro hmem
  rw [h.isBlank b hmem] at hb
  cases hb

/-- The bytes of one kind are no blanks if no blank is of that kind. -/
theorem not_blank_of {p : UInt8 → Bool}
    (hp : p Byte.space = false ∧ p Byte.tab = false ∧ p Byte.cr = false) {b : UInt8}
    (hb : p b = true) : Byte.isBlank b = false := by
  rw [Bool.eq_false_iff, ne_eq, isBlank_iff]
  rintro (rfl | rfl | rfl)
  · exact absurd (hp.1.symm.trans hb) Bool.false_ne_true
  · exact absurd (hp.2.1.symm.trans hb) Bool.false_ne_true
  · exact absurd (hp.2.2.symm.trans hb) Bool.false_ne_true

/-- The text neither starts nor ends with a blank. -/
@[mk_iff]
structure Tight (s : Bytes) : Prop where
  head : ∀ b ∈ s.head?, Byte.isBlank b = false
  last : ∀ b ∈ s.getLast?, Byte.isBlank b = false

instance (s : Bytes) : Decidable (Tight s) :=
  decidable_of_iff
    (s.head?.all (!Byte.isBlank ·) = true ∧ s.getLast?.all (!Byte.isBlank ·) = true)
    (by simp [tight_iff, Option.all_eq_true])

theorem tight_of_no_blank {s : Bytes} (h : ∀ b ∈ s, Byte.isBlank b = false) : Tight s :=
  ⟨fun b hb => h b (List.mem_of_head? hb), fun b hb => h b (List.mem_of_getLast? hb)⟩

/-- What stands between two texts does not matter to the ends. -/
theorem Tight.around {s t : Bytes} (hs : Tight s) (ht : Tight t) (hne : s ≠ []) (hne' : t ≠ [])
    (middle : Bytes) : Tight (s ++ middle ++ t) := by
  constructor
  · intro b hb
    rw [List.append_assoc, List.head?_append_of_ne_nil _ hne] at hb
    exact hs.head b hb
  · intro b hb
    rw [List.getLast?_append_of_ne_nil _ hne'] at hb
    exact ht.last b hb

/-- What a text starts with is found behind blanks. -/
theorem Tight.dropWhile_eq {before s : Bytes} (hs : Tight s) (hne : s ≠ []) (hb : Blanks before)
    (rest : Bytes) : (before ++ s ++ rest).dropWhile Byte.isBlank = s ++ rest := by
  cases s with
  | nil => exact absurd rfl hne
  | cons b s =>
      rw [List.append_assoc, List.dropWhile_append_of_pos hb.isBlank, List.cons_append,
        List.dropWhile_cons_of_neg (by simp [hs.head b rfl])]

/-- No blanks come before a text that starts with none. -/
theorem Tight.front_eq_nil {before s : Bytes} (h : Tight (before ++ s)) (hb : Blanks before) :
    before = [] := by
  cases before with
  | nil => rfl
  | cons b before =>
      have hblank := hb.isBlank b List.mem_cons_self
      rw [h.head b rfl] at hblank
      cases hblank

theorem Tight.back_eq_nil {s after : Bytes} (h : Tight (s ++ after)) (ha : Blanks after) :
    after = [] := by
  by_contra hne
  have hlast := List.getLast?_eq_some_getLast hne
  have hblank := ha.isBlank _ (List.getLast_mem hne)
  rw [h.last _ (List.mem_getLast?_append_of_mem_getLast? hlast)] at hblank
  cases hblank

namespace Bytes

theorem exists_trim (s : Bytes) :
    ∃ before after, Blanks before ∧ Blanks after ∧ s = before ++ trim s ++ after := by
  refine ⟨s.takeWhile Byte.isBlank, (s.dropWhile Byte.isBlank).rtakeWhile Byte.isBlank, ?_, ?_, ?_⟩
  · exact blanks_of_isBlank fun b hb => List.mem_takeWhile_imp hb
  · exact blanks_of_isBlank fun b hb => List.mem_rtakeWhile_imp hb
  · have hback : trim s ++ (s.dropWhile Byte.isBlank).rtakeWhile Byte.isBlank =
        s.dropWhile Byte.isBlank := List.rdropWhile_append_rtakeWhile
    rw [List.append_assoc, hback, List.takeWhile_append_dropWhile]

theorem tight_trim (s : Bytes) : Tight (trim s) := by
  have hprefix : trim s <+: s.dropWhile Byte.isBlank := List.rdropWhile_prefix _ _
  constructor
  · intro b hb
    obtain ⟨rest, hrest⟩ := List.head?_eq_some_iff.mp hb
    obtain ⟨more, hmore⟩ := hprefix
    rw [hrest] at hmore
    exact ((dropWhile_isBlank_eq_cons_iff s b (rest ++ more)).mp hmore.symm).1
  · intro b hb
    have hne : trim s ≠ [] := fun hnil => by simp [hnil] at hb
    have hlast := List.rdropWhile_last_not Byte.isBlank (s.dropWhile Byte.isBlank) hne
    rw [List.getLast?_eq_some_getLast hne] at hb
    obtain rfl := Option.some.inj hb
    exact Bool.eq_false_iff.mpr hlast

theorem trim_append {before t after : Bytes} (hbefore : Blanks before) (ht : Tight t)
    (hafter : Blanks after) : trim (before ++ t ++ after) = t := by
  rw [trim, List.append_assoc, List.dropWhile_append_of_pos hbefore.isBlank]
  cases t with
  | nil =>
      have hnothing : after.dropWhile Byte.isBlank = [] := (blanks_iff_dropWhile after).mp hafter
      rw [List.nil_append, hnothing]
      rfl
  | cons b t =>
      have hhead : Byte.isBlank b = false := ht.head b rfl
      have hback : ∀ c ∈ after.reverse, Byte.isBlank c = true := by
        intro c hc
        exact hafter.isBlank c (List.mem_reverse.mp hc)
      have hkeep : (b :: t).rdropWhile Byte.isBlank = b :: t := by
        rw [List.rdropWhile_eq_self_iff]
        intro hne
        rw [ht.last _ (List.getLast?_eq_some_getLast hne)]
        exact Bool.false_ne_true
      rw [List.cons_append, List.dropWhile_cons_of_neg (by simp [hhead]), ← List.cons_append,
        List.reverse_append, List.dropWhile_append_of_pos hback]
      exact hkeep

/-- Blanks around a text do not matter. -/
theorem trim_around {before after : Bytes} (hbefore : Blanks before) (hafter : Blanks after)
    (s : Bytes) : trim (before ++ s ++ after) = trim s := by
  obtain ⟨start, back, hstart, hback, hs⟩ := exists_trim s
  have hwhole : before ++ s ++ after = before ++ start ++ trim s ++ (back ++ after) := by
    conv => lhs; rw [hs]
    simp only [List.append_assoc]
  rw [hwhole, trim_append (hbefore.append hstart) (tight_trim s) (hback.append hafter)]

end Bytes

/-- A text is cut in one way at the first byte of a kind. -/
theorem first_cut_inj {b : UInt8} {front front' back back' : Bytes} (h : b ∉ front)
    (h' : b ∉ front') (heq : front ++ b :: back = front' ++ b :: back') :
    front = front' ∧ back = back' := by
  induction front generalizing front' with
  | nil =>
      cases front' with
      | nil => exact ⟨rfl, (List.cons.inj heq).2⟩
      | cons c front' => exact absurd ((List.cons.inj heq).1 ▸ List.mem_cons_self) h'
  | cons c front ih =>
      cases front' with
      | nil => exact absurd ((List.cons.inj heq).1 ▸ List.mem_cons_self) h
      | cons c' front' =>
          obtain ⟨rfl, hrest⟩ := List.cons.inj heq
          rw [List.mem_cons, not_or] at h h'
          obtain ⟨rfl, hback⟩ := ih h.2 h'.2 hrest
          exact ⟨rfl, hback⟩

end Linewise
