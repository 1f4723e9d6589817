import Linewise.Listing.Reader
import Linewise.Listing.Verify
import Linewise.Proofs.Listing.Grammar
import Linewise.Proofs.Listing.Lines
import Mathlib.Data.List.Forall2
/-!
The reader's pass over the lines of a text. As long as nothing was refused it holds the operations
of the lines behind it and knows whether a halt is among them, and it refuses a line exactly if the
grammar gives the line no meaning or the line has content after the halt.
-/
namespace Linewise
namespace Reader

def Means (l : Line) (o : Option Op) : Prop := (LineReading.ofLine l.text).meaning? = some o

/-- The reader has refused nothing and holds the operations of the lines behind it. -/
structure Follows (r : Reader) (os : List (Option Op)) : Prop where
  ok : r.ok = true
  found : r.found = []
  instrs : r.instrs.reverse = os.reduceOption.map (⟨·, 0⟩)
  halted : r.halted = true ↔ some .halt ∈ os
  idle : IdleAfterHalt os

theorem follows_nil : Follows {} [] := ⟨rfl, rfl, rfl, by simp, .nil⟩

variable {r : Reader} {os : List (Option Op)} (file : UInt32) {l : Line}

theorem Follows.idleAfterHalt_concat (h : r.Follows os) {o : Option Op}
    (ho : r.halted = true → o = none) : IdleAfterHalt (os ++ [o]) := by
  refine List.pairwise_append.mpr ⟨h.idle, List.pairwise_singleton _ _, ?_⟩
  rintro x hx _ hy rfl
  obtain rfl := List.mem_singleton.mp hy
  exact ho (h.halted.mpr hx)

theorem Follows.skip (h : r.Follows os) : r.Follows (os ++ [none]) where
  ok := h.ok
  found := h.found
  instrs := by rw [List.reduceOption_append, h.instrs]; simp
  halted := by rw [h.halted]; simp
  idle := h.idleAfterHalt_concat fun _ => rfl

theorem Follows.comment (h : r.Follows os) (text : Bytes) : (r.comment text).Follows os := by
  unfold Reader.comment
  split
  · exact ⟨h.ok, h.found, h.instrs, h.halted, h.idle⟩
  · exact h

theorem Follows.instruction (h : r.Follows os) (hr : r.halted = false) (op : Op) :
    (r.instruction op).Follows (os ++ [some op]) where
  ok := h.ok
  found := h.found
  instrs := by simp [Reader.instruction, List.reduceOption_append, h.instrs]
  halted := by
    have hos : some Op.halt ∉ os := by simp [← h.halted, hr]
    simp [Reader.instruction, hos, eq_comm]
  idle := h.idleAfterHalt_concat fun ht => by simp [hr] at ht

/-- A line with a meaning is read as that, unless it has content after the halt. -/
theorem Follows.step (h : r.Follows os) {o : Option Op} (hl : Means l o)
    (ho : r.halted = true → o = none) : (r.step file l).Follows (os ++ [o]) := by
  unfold Means at hl
  unfold Reader.step
  cases hline : LineReading.ofLine l.text with
  | blank =>
      rw [hline] at hl
      cases hl
      exact h.skip
  | comment text =>
      rw [hline] at hl
      cases hl
      exact (h.comment text).skip
  | instruction op =>
      rw [hline] at hl
      cases hl
      have hr : r.halted = false := by
        rw [← Bool.not_eq_true]
        exact fun ht => by cases ho ht
      simp only [hr]
      exact h.instruction hr op
  | fault cause =>
      rw [hline] at hl
      cases hl

theorem afterHalt_not_ok (r : Reader) (l : Line) : (r.afterHalt file l).ok = false := by
  unfold afterHalt
  split
  · rfl
  · rfl

/-- Any other line is refused. -/
theorem step_refuses (h : ∀ o, Means l o → r.halted = true ∧ o ≠ none) :
    (r.step file l).ok = false := by
  unfold Means at h
  unfold step
  cases hline : LineReading.ofLine l.text with
  | blank => exact absurd rfl (h none (by rw [hline]; rfl)).2
  | comment text => exact absurd rfl (h none (by rw [hline]; rfl)).2
  | instruction op =>
      simp only [(h (some op) (by rw [hline]; rfl)).1, if_true]
      exact afterHalt_not_ok file r l
  | fault cause =>
      by_cases hr : r.halted = true
      · simp only [hr, if_true]
        exact afterHalt_not_ok file r l
      · simp only [if_neg hr]
        rfl

theorem step_not_ok (h : r.ok = false) (l : Line) : (r.step file l).ok = false := by
  unfold step
  cases LineReading.ofLine l.text with
  | blank => exact h
  | comment text =>
      simp only [Reader.comment]
      split
      · exact h
      · exact h
  | instruction op =>
      simp only
      split
      · exact afterHalt_not_ok file r l
      · exact h
  | fault cause =>
      simp only
      split
      · exact afterHalt_not_ok file r l
      · rfl

theorem foldl_not_ok (h : r.ok = false) (ls : List Line) :
    (ls.foldl (Reader.step file) r).ok = false := by
  induction ls generalizing r with
  | nil => exact h
  | cons l ls ih => exact ih (step_not_ok file h l)

theorem Follows.foldl (h : r.Follows os) {ls : List Line} {more : List (Option Op)}
    (hls : List.Forall₂ Means ls more) (hidle : IdleAfterHalt (os ++ more)) :
    (ls.foldl (Reader.step file) r).Follows (os ++ more) := by
  induction hls generalizing r os with
  | nil => simpa using h
  | @cons l o ls more hl _ ih =>
      have ho : r.halted = true → o = none := fun hr =>
        (List.pairwise_append.mp hidle).2.2 _ (h.halted.mp hr) o List.mem_cons_self rfl
      rw [List.append_cons] at hidle ⊢
      exact ih (h.step file hl ho) hidle

theorem Follows.of_foldl (h : r.Follows os) {ls : List Line}
    (hok : (ls.foldl (Reader.step file) r).ok = true) :
    ∃ more, List.Forall₂ Means ls more ∧
      (ls.foldl (Reader.step file) r).Follows (os ++ more) := by
  induction ls generalizing r os with
  | nil => exact ⟨[], .nil, by simpa using h⟩
  | cons l ls ih =>
      rw [List.foldl_cons] at hok ⊢
      by_cases hl : ∃ o, Means l o ∧ (r.halted = true → o = none)
      · obtain ⟨o, hmeans, ho⟩ := hl
        obtain ⟨more, hls, hfollows⟩ := ih (h.step file hmeans ho) hok
        rw [← List.append_cons] at hfollows
        exact ⟨o :: more, .cons hmeans hls, hfollows⟩
      · have hrefuses : (r.step file l).ok = false := step_refuses file fun o hmeans =>
          Classical.not_imp.mp fun ho => hl ⟨o, hmeans, ho⟩
        rw [foldl_not_ok file hrefuses ls] at hok
        cases hok

end Reader

namespace Listing

theorem forall₂_means_iff {ls : List Line} {s : Bytes} (hls : ls.map (·.text) = s.splitOn Byte.lf)
    (os : List (Option Op)) :
    List.Forall₂ Reader.Means ls os ↔ List.Forall₂ LineSpelled (s.splitOn Byte.lf) os := by
  have hlf : ∀ l ∈ ls, Byte.lf ∉ l.text := fun l hl =>
    Newline.lf_not_mem_of_mem_splitOn (hls ▸ List.mem_map_of_mem hl)
  rw [← hls, List.forall₂_map_left_iff]
  clear hls
  induction ls generalizing os with
  | nil => simp
  | cons l ls ih =>
      rw [List.forall_mem_cons] at hlf
      have hl : ∀ o, Reader.Means l o ↔ LineSpelled l.text o := LineReading.meaning_ofLine hlf.1
      simp only [List.forall₂_cons_left_iff, hl, fun more => ih more hlf.2]

/-- An empty line at the end makes no difference to the reader. -/
theorem exists_lines_splitOn (file : UInt32) (text : Bytes) : ∃ ls : List Line,
    ls.map (·.text) = text.splitOn Byte.lf ∧
      ls.foldl (Reader.step file) {} = (Newline.lf.split text).foldl (Reader.step file) {} := by
  rcases Newline.splitOn_lf text with h | h
  · exact ⟨_, h.symm, rfl⟩
  · refine ⟨Newline.lf.split text ++ [⟨[], 0, 0, false⟩], ?_, ?_⟩
    · rw [List.map_append, h]
      rfl
    · rw [List.foldl_append]
      rfl

/-- A text of the grammar is read without a diagnostic, with the operations that it spells. -/
theorem read_of_spelled {text : Bytes} {os : List (Option Op)}
    (hlines : List.Forall₂ LineSpelled (text.splitOn Byte.lf) os) (hhalt : HaltLast os)
    (file : UInt32) (bag : Option Bag) :
    Listing.read text file bag =
      (some { instrs := os.reduceOption.map (⟨·, 0⟩)
              optimized := ((Newline.lf.split text).foldl (Reader.step file) {}).optimized },
        bag) := by
  obtain ⟨ls, hls, hrun⟩ := exists_lines_splitOn file text
  have h := Reader.follows_nil.foldl file ((forall₂_means_iff hls os).mpr hlines) hhalt.idle
  rw [List.nil_append, hrun] at h
  have hhalted := h.halted.mpr ((haltLast_iff os).mp hhalt).1
  have hbag : bag.map (·.report []) = bag := by simp [Bag.report]
  simp only [Listing.read, Reader.finish, hhalted, if_true, Reader.listing?, h.ok, h.found,
    h.instrs, List.reverse_nil, hbag]

/-- The reader of a text that is read refused nothing and met a halt. -/
theorem ok_of_read {text : Bytes} {file : UInt32} {bag : Option Bag} {l : Listing}
    (h : (Listing.read text file bag).1 = some l) :
    ((Newline.lf.split text).foldl (Reader.step file) {}).ok = true ∧
      ((Newline.lf.split text).foldl (Reader.step file) {}).halted = true := by
  simp only [Listing.read, Reader.finish, Reader.listing?] at h
  split_ifs at h with hhalted hok
  · exact ⟨hok, hhalted⟩
  · rename_i hok
    cases hok

/-- Only texts of the grammar are read. -/
theorem spelled_of_read {text : Bytes} {file : UInt32} {bag : Option Bag} {l : Listing}
    (h : (Listing.read text file bag).1 = some l) :
    ∃ os, List.Forall₂ LineSpelled (text.splitOn Byte.lf) os ∧ HaltLast os := by
  obtain ⟨ls, hls, hrun⟩ := exists_lines_splitOn file text
  obtain ⟨hok, hhalted⟩ := ok_of_read h
  rw [← hrun] at hhalted hok
  obtain ⟨os, hmeans, hfollows⟩ := Reader.follows_nil.of_foldl file hok
  rw [List.nil_append] at hfollows
  exact ⟨os, (forall₂_means_iff hls os).mp hmeans,
    (haltLast_iff os).mpr ⟨hfollows.halted.mp hhalted, hfollows.idle⟩⟩

/-- A text that is read puts nothing into the bag. -/
theorem read_eq_of_read {text : Bytes} {file : UInt32} {bag : Option Bag} {l : Listing}
    (h : (Listing.read text file bag).1 = some l) : Listing.read text file bag = (some l, bag) := by
  obtain ⟨os, hlines, hhalt⟩ := spelled_of_read h
  refine Prod.ext h ?_
  rw [read_of_spelled hlines hhalt]

/-- A listing that was read has the operations that its text spells, each of no source line, and its
one halt at the end. -/
theorem instrs_of_read {text : Bytes} {file : UInt32} {bag : Option Bag} {l : Listing}
    (h : (Listing.read text file bag).1 = some l) :
    Spells text (l.instrs.map (·.op)) ∧ l.instrs = (l.instrs.map (·.op)).map (⟨·, 0⟩) ∧
      ∃ front, l.instrs = front ++ [⟨.halt, 0⟩] ∧ ∀ i ∈ front, i.op ≠ .halt := by
  obtain ⟨os, hlines, hhalt⟩ := spelled_of_read h
  obtain ⟨front, hfront, hne⟩ := hhalt.reduceOption
  rw [read_of_spelled hlines hhalt] at h
  obtain rfl := Option.some.inj h
  have hops : (os.reduceOption.map fun op => (⟨op, 0⟩ : Instr)).map (·.op) = os.reduceOption := by
    rw [List.map_map]
    exact List.map_id _
  refine ⟨⟨os, hlines, hhalt, hops⟩, by rw [hops], front.map (⟨·, 0⟩), ?_, ?_⟩
  · rw [hfront, List.map_append]
    rfl
  · intro i hi heq
    obtain ⟨op, hop, rfl⟩ := List.mem_map.mp hi
    exact hne (heq ▸ hop)

theorem stats_of_read {text : Bytes} {file : UInt32} {bag : Option Bag} {l : Listing}
    (h : (Listing.read text file bag).1 = some l) : l.stats = {} := by
  obtain ⟨os, hlines, hhalt⟩ := spelled_of_read h
  rw [read_of_spelled hlines hhalt] at h
  obtain rfl := Option.some.inj h
  rfl

end Listing
end Linewise
