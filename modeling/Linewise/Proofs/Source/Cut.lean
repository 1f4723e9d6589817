import Linewise.Line
import Mathlib.Data.List.Infix
/-!
The logical lines of a source, said without a search: the source is put together from lines, each
free of terminators, and a terminator after each of them, which only the last may lack. There is one
way to do this, and it is the one that the splitter finds.
-/
namespace Linewise

namespace Newline

/-- The text has no terminator of the rule in it. -/
def Free : Newline → Bytes → Prop
  | .crlf, text => ¬ [Byte.cr, Byte.lf] <:+: text
  | .lf, text => Byte.lf ∉ text
  | .universal, text => Byte.cr ∉ text ∧ Byte.lf ∉ text

instance (rule : Newline) (text : Bytes) : Decidable (rule.Free text) :=
  match rule with
  | .crlf => inferInstanceAs (Decidable (¬ [Byte.cr, Byte.lf] <:+: text))
  | .lf => inferInstanceAs (Decidable (Byte.lf ∉ text))
  | .universal => inferInstanceAs (Decidable (Byte.cr ∉ text ∧ Byte.lf ∉ text))

/-- The terminators of a rule, each with the bytes after it: a carriage return that a line feed
follows is half of a terminator. -/
inductive Ends : Newline → Bytes → Bytes → Prop
  | pair {rule rest} : rule ≠ .lf → Ends rule [Byte.cr, Byte.lf] rest
  | feed {rule rest} : rule ≠ .crlf → Ends rule [Byte.lf] rest
  | lone {rest} : rest.head? ≠ some Byte.lf → Ends .universal [Byte.cr] rest

/-- The source is put together from these lines and terminators. -/
inductive Cut (rule : Newline) : Bytes → List Piece → Prop
  | nil : Cut rule [] []
  | last {text} : text ≠ [] → rule.Free text → Cut rule text [⟨text, []⟩]
  | line {text terminator rest ps} : rule.Free text → rule.Ends terminator rest →
      Cut rule rest ps → Cut rule (text ++ (terminator ++ rest)) (⟨text, terminator⟩ :: ps)

variable {rule : Newline}

theorem free_nil (rule : Newline) : rule.Free [] := by
  cases rule with
  | crlf => simp [Free]
  | lf | universal => simp [Free]

theorem Free.tail {b : UInt8} {text : Bytes} (h : rule.Free (b :: text)) : rule.Free text := by
  cases rule with
  | crlf => exact fun hpair => h (List.infix_cons hpair)
  | lf => exact fun hlf => h (List.mem_cons_of_mem b hlf)
  | universal =>
      exact ⟨fun hcr => h.1 (List.mem_cons_of_mem b hcr), fun hlf => h.2 (List.mem_cons_of_mem b hlf)⟩

theorem Free.head {b : UInt8} {text : Bytes} (h : Newline.universal.Free (b :: text)) :
    b ≠ Byte.cr ∧ b ≠ Byte.lf :=
  ⟨fun hb => h.1 (hb ▸ List.mem_cons_self), fun hb => h.2 (hb ▸ List.mem_cons_self)⟩

theorem terminator?_eq_some_iff {b : UInt8} {rest t after : Bytes} :
    rule.terminator? b rest = some (t, after) ↔ rule.Ends t after ∧ t ++ after = b :: rest := by
  constructor
  · intro h
    refine ⟨?_, terminator?_append h⟩
    unfold terminator? at h
    split_ifs at h with hpair hsingle
    · cases h
      exact .pair hpair.1
    · cases h
      rcases hsingle with ⟨hrule, rfl⟩ | ⟨rfl, rfl⟩
      · exact .feed hrule
      · exact .lone fun hhead => hpair ⟨by decide, rfl, hhead⟩
  · rintro ⟨hends, happend⟩
    cases hends with
    | pair hrule =>
        cases happend
        exact if_pos ⟨hrule, rfl, rfl⟩
    | feed hrule =>
        cases happend
        exact (if_neg (by simp [Byte.lf, Byte.cr])).trans (if_pos (.inl ⟨hrule, rfl⟩))
    | lone hhead =>
        cases happend
        exact (if_neg fun h => hhead h.2.2).trans (if_pos (.inr ⟨rfl, rfl⟩))

/-- No terminator starts in a free text, nor at its end and in what follows. -/
theorem Free.terminator?_eq_none {b : UInt8} {text tail : Bytes} (h : rule.Free (b :: text))
    (htail : rule = .crlf → tail.head? ≠ some Byte.lf) :
    rule.terminator? b (text ++ tail) = none := by
  cases rule with
  | crlf =>
      refine (if_neg ?_).trans (if_neg (by simp))
      rintro ⟨_, rfl, hhead⟩
      cases text with
      | nil => exact htail rfl hhead
      | cons c text =>
          cases hhead
          exact h (List.IsPrefix.isInfix ⟨text, rfl⟩)
  | lf =>
      have hb : b ≠ Byte.lf := fun hb => h (hb ▸ List.mem_cons_self)
      simp [terminator?, hb]
  | universal =>
      have hb := h.head
      simp [terminator?, hb.1, hb.2]

theorem Free.cons {b : UInt8} {text tail : Bytes} (h : rule.Free text)
    (hb : rule.terminator? b (text ++ tail) = none) : rule.Free (b :: text) := by
  unfold terminator? at hb
  split_ifs at hb with hpair hsingle
  cases rule with
  | crlf =>
      intro hinfix
      rcases List.infix_cons_iff.mp hinfix with hfront | hinner
      · obtain ⟨rest, hrest⟩ := hfront
        cases hrest
        exact hpair ⟨by decide, rfl, rfl⟩
      · exact h hinner
  | lf =>
      simp only [Free, List.mem_cons, not_or] at h ⊢
      exact ⟨fun hlf => hsingle (.inl ⟨by decide, hlf.symm⟩), h⟩
  | universal =>
      simp only [Free, List.mem_cons, not_or] at h ⊢
      exact ⟨⟨fun hcr => hsingle (.inr ⟨rfl, hcr.symm⟩), h.1⟩,
        fun hlf => hsingle (.inl ⟨by decide, hlf.symm⟩), h.2⟩

theorem Ends.head?_ne {t rest : Bytes} (h : rule.Ends t rest) :
    rule = .crlf → (t ++ rest).head? ≠ some Byte.lf := by
  intro hrule
  cases h with
  | pair _ => simp [Byte.cr, Byte.lf]
  | feed hne => exact absurd hrule hne
  | lone _ => cases hrule

theorem firstPiece_of_line {text t rest : Bytes} (htext : rule.Free text) (ht : rule.Ends t rest)
    (seen : Bytes) :
    rule.firstPiece seen (text ++ (t ++ rest)) = (⟨seen.reverse ++ text, t⟩, rest) := by
  induction text generalizing seen with
  | nil =>
      obtain ⟨b, more, hmore⟩ : ∃ b more, t ++ rest = b :: more := by
        cases ht with
        | pair _ | feed _ | lone _ => exact ⟨_, _, rfl⟩
      have hsome := terminator?_eq_some_iff.mpr ⟨ht, hmore⟩
      rw [List.nil_append, hmore, firstPiece, hsome, List.append_nil]
  | cons b text ih =>
      have hnone := htext.terminator?_eq_none ht.head?_ne
      rw [List.cons_append, firstPiece, hnone]
      dsimp only
      rw [ih htext.tail, List.reverse_cons, List.append_assoc, List.singleton_append]

theorem firstPiece_of_last {text : Bytes} (htext : rule.Free text) (seen : Bytes) :
    rule.firstPiece seen text = (⟨seen.reverse ++ text, []⟩, []) := by
  induction text generalizing seen with
  | nil => rw [firstPiece, List.append_nil]
  | cons b text ih =>
      have hnone : rule.terminator? b (text ++ []) = none := htext.terminator?_eq_none (by simp)
      rw [List.append_nil] at hnone
      rw [firstPiece, hnone]
      dsimp only
      rw [ih htext.tail, List.reverse_cons, List.append_assoc, List.singleton_append]

/-- A text is a last line, or a line, a terminator and more text. -/
theorem free_or_line (rule : Newline) (s : Bytes) :
    rule.Free s ∨ ∃ text t rest, s = text ++ (t ++ rest) ∧ rule.Free text ∧ rule.Ends t rest := by
  induction s with
  | nil => exact .inl (free_nil rule)
  | cons b rest ih =>
      cases hb : rule.terminator? b rest with
      | some split =>
          obtain ⟨t, after⟩ := split
          obtain ⟨hends, happend⟩ := terminator?_eq_some_iff.mp hb
          exact .inr ⟨[], t, after, happend.symm, free_nil rule, hends⟩
      | none =>
          rcases ih with hrest | ⟨text, t, after, rfl, htext, hends⟩
          · rw [← List.append_nil rest] at hb
            exact .inl (hrest.cons hb)
          · exact .inr ⟨b :: text, t, after, rfl, htext.cons hb, hends⟩

theorem Ends.ne_nil {t rest : Bytes} (h : rule.Ends t rest) : t ≠ [] := by
  cases h with
  | pair _ | feed _ | lone _ => exact List.cons_ne_nil _ _

theorem Cut.eq_pieces {s : Bytes} {ps : List Piece} (h : rule.Cut s ps) : ps = rule.pieces s := by
  induction h with
  | nil => exact (rule.pieces_nil).symm
  | last hne htext =>
      rw [rule.pieces_of_ne_nil hne, firstPiece_of_last htext, rule.pieces_nil]
      rfl
  | @line text t rest ps htext hends _ ih =>
      have hne : t ++ rest ≠ [] := List.append_ne_nil_of_left_ne_nil hends.ne_nil rest
      rw [rule.pieces_of_ne_nil (List.append_ne_nil_of_right_ne_nil text hne),
        firstPiece_of_line htext hends, ih]
      rfl

theorem exists_cut (rule : Newline) (s : Bytes) : ∃ ps, rule.Cut s ps := by
  induction hn : s.length using Nat.strongRecOn generalizing s with
  | ind n ih =>
      rcases rule.free_or_line s with hs | ⟨text, t, rest, rfl, htext, hends⟩
      · by_cases hne : s = []
        · exact ⟨[], hne ▸ .nil⟩
        · exact ⟨_, .last hne hs⟩
      · have hpos : 0 < t.length := List.length_pos_iff.mpr hends.ne_nil
        obtain ⟨ps, hps⟩ := ih rest.length
          (by rw [← hn, List.length_append, List.length_append]; omega) rest rfl
        exact ⟨_, .line htext hends hps⟩

/-- A source is cut in one way. -/
theorem cut_iff (rule : Newline) (s : Bytes) (ps : List Piece) :
    rule.Cut s ps ↔ ps = rule.pieces s := by
  refine ⟨Cut.eq_pieces, ?_⟩
  rintro rfl
  obtain ⟨ps, hps⟩ := rule.exists_cut s
  exact hps.eq_pieces ▸ hps

theorem cut_pieces (rule : Newline) (s : Bytes) : rule.Cut s (rule.pieces s) :=
  (rule.cut_iff s _).mpr rfl

/-- Nothing is lost and no piece is empty. -/
theorem Cut.bytes {s : Bytes} {ps : List Piece} (h : rule.Cut s ps) :
    ps.flatMap (·.bytes) = s ∧ ∀ p ∈ ps, p.bytes ≠ [] := by
  induction h with
  | nil => simp
  | last hne _ => simp [Piece.bytes, hne]
  | @line text terminator rest ps _ hends _ ih =>
      rw [List.flatMap_cons, ih.1, List.forall_mem_cons]
      refine ⟨List.append_assoc _ _ _, ?_, ih.2⟩
      exact List.append_ne_nil_of_right_ne_nil _ hends.ne_nil

theorem Cut.free {s : Bytes} {ps : List Piece} (h : rule.Cut s ps) : ∀ p ∈ ps, rule.Free p.text := by
  induction h with
  | nil => simp
  | last _ htext => exact List.forall_mem_singleton.mpr htext
  | line htext _ _ ih => exact List.forall_mem_cons.mpr ⟨htext, ih⟩

end Newline
end Linewise
