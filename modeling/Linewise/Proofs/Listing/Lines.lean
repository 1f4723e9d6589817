import Linewise.Proofs.Source.Cut
import Mathlib.Data.List.Basic
/-!
The cut at line feeds. A text is a last line without a line feed, or a line, a line feed and more
text, and all facts about its lines go by that. The lines of the text are the stretches between its
line feeds, except that an empty last stretch is no line.
-/
namespace Linewise

/-- Induction on the lines of a text from its start. -/
@[elab_as_elim]
theorem lf_induction {motive : Bytes → Prop} (last : ∀ line, Byte.lf ∉ line → motive line)
    (more : ∀ line rest, Byte.lf ∉ line → motive rest → motive (line ++ Byte.lf :: rest))
    (s : Bytes) : motive s := by
  induction hn : s.length using Nat.strongRecOn generalizing s with
  | ind n ih =>
      by_cases hlf : Byte.lf ∈ s
      · obtain ⟨line, rest, rfl, hline⟩ := List.eq_append_cons_of_mem hlf
        refine more line rest hline (ih rest.length ?_ rest rfl)
        rw [← hn, List.length_append, List.length_cons]
        omega
      · exact last s hlf

namespace Newline

theorem enumerate_text (rule : Newline) (index offset : Nat) (ps : List Piece) :
    (Line.enumerate rule index offset ps).map (·.text) = ps.map (·.text) := by
  induction ps generalizing index offset with
  | nil => rfl
  | cons p ps ih => rw [Line.enumerate, List.map_cons, List.map_cons, ih]

def lfLines (s : Bytes) : List Bytes := (Newline.lf.split s).map (·.text)

theorem lfLines_eq (s : Bytes) : lfLines s = (Newline.lf.pieces s).map (·.text) :=
  enumerate_text _ _ _ _

theorem lfLines_nil : lfLines [] = [] := by
  rw [lfLines_eq, pieces_nil]
  rfl

theorem lfLines_last {line : Bytes} (h : Byte.lf ∉ line) (hne : line ≠ []) :
    lfLines line = [line] := by
  have hcut : Newline.lf.Cut line [⟨line, []⟩] := .last hne h
  rw [lfLines_eq, ← hcut.eq_pieces]
  rfl

theorem lfLines_append {line : Bytes} (h : Byte.lf ∉ line) (rest : Bytes) :
    lfLines (line ++ Byte.lf :: rest) = line :: lfLines rest := by
  have hcut : Newline.lf.Cut (line ++ ([Byte.lf] ++ rest)) (_ :: Newline.lf.pieces rest) :=
    .line h (.feed (by decide)) (Newline.lf.cut_pieces rest)
  rw [lfLines_eq, lfLines_eq, ← List.singleton_append, ← hcut.eq_pieces]
  rfl

/-- At a line feed, and at the very start, the lines of a text are those before and those after. -/
theorem lfLines_append_of_ends {a : Bytes} (ha : a = [] ∨ a.getLast? = some Byte.lf) (b : Bytes) :
    lfLines (a ++ b) = lfLines a ++ lfLines b := by
  induction a using lf_induction with
  | last line h =>
      rcases ha with rfl | hend
      · rw [lfLines_nil, List.nil_append, List.nil_append]
      · exact absurd (List.mem_of_getLast? hend) h
  | more line rest h ih =>
      have hrest : rest = [] ∨ rest.getLast? = some Byte.lf := by
        cases rest with
        | nil => exact .inl rfl
        | cons c rest => exact .inr (by simpa [List.getLast?_append] using ha)
      rw [List.append_assoc, List.cons_append, lfLines_append h, lfLines_append h, ih hrest,
        List.cons_append]

/-- The lines are the stretches between line feeds, save for an empty last one. -/
theorem splitOn_lf (s : Bytes) :
    s.splitOn Byte.lf = lfLines s ∨ s.splitOn Byte.lf = lfLines s ++ [[]] := by
  induction s using lf_induction with
  | last line h =>
      rw [List.splitOn_eq_singleton h]
      by_cases hne : line = []
      · right
        rw [hne, lfLines_nil, List.nil_append]
      · left
        rw [lfLines_last h hne]
  | more line rest h ih =>
      rw [List.splitOn_append_cons_self_of_not_mem h, lfLines_append h, List.cons_append]
      exact ih.imp (congrArg (line :: ·)) (congrArg (line :: ·))

theorem lf_not_mem_of_mem_splitOn {s line : Bytes} (h : line ∈ s.splitOn Byte.lf) :
    Byte.lf ∉ line := by
  induction s using lf_induction with
  | last last hlast =>
      rw [List.splitOn_eq_singleton hlast, List.mem_singleton] at h
      exact h ▸ hlast
  | more first rest hfirst ih =>
      rw [List.splitOn_append_cons_self_of_not_mem hfirst, List.mem_cons] at h
      exact h.elim (fun heq => heq ▸ hfirst) ih

theorem lf_not_mem_of_mem_lfLines {s line : Bytes} (h : line ∈ lfLines s) : Byte.lf ∉ line := by
  rw [lfLines_eq] at h
  obtain ⟨p, hp, rfl⟩ := List.mem_map.mp h
  exact (Newline.lf.cut_pieces s).free p hp

theorem splitOn_flatMap_append {ls : List Bytes} (h : ∀ line ∈ ls, Byte.lf ∉ line) (rest : Bytes) :
    (ls.flatMap (· ++ [Byte.lf]) ++ rest).splitOn Byte.lf = ls ++ rest.splitOn Byte.lf := by
  induction ls with
  | nil => rfl
  | cons line ls ih =>
      rw [List.forall_mem_cons] at h
      rw [List.flatMap_cons, List.append_assoc, List.append_assoc, List.singleton_append,
        List.splitOn_append_cons_self_of_not_mem h.1, ih h.2, List.cons_append]

theorem splitOn_flatMap {ls : List Bytes} (h : ∀ line ∈ ls, Byte.lf ∉ line) :
    (ls.flatMap (· ++ [Byte.lf])).splitOn Byte.lf = ls ++ [[]] := by
  have hsplit := splitOn_flatMap_append h []
  rw [List.append_nil, List.splitOn_nil] at hsplit
  exact hsplit

theorem lfLines_flatMap {ls : List Bytes} (h : ∀ line ∈ ls, Byte.lf ∉ line) :
    lfLines (ls.flatMap (· ++ [Byte.lf])) = ls := by
  induction ls with
  | nil => exact lfLines_nil
  | cons line ls ih =>
      rw [List.forall_mem_cons] at h
      rw [List.flatMap_cons, List.append_assoc, List.singleton_append, lfLines_append h.1, ih h.2]

end Newline
end Linewise
