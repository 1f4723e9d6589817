import Linewise.Diagnostic.Basic
import Linewise.Proofs.Source.Partition
/-!
Where the newline rules agree. The universal rule finds a line end wherever another rule finds one.
So a rule reads the lines of the universal rule as soon as it misses none of their ends: the rule of
line feeds if there is no carriage return at all, the rule of pairs if all line ends are pairs.
-/
namespace Linewise

/-- The text with a line feed for every line end: a carriage return in front of a line feed goes, and
any other carriage return becomes one. -/
def Bytes.withFeeds : Bytes → Bytes
  | [] => []
  | b :: rest =>
    if b = Byte.cr ∧ rest.head? = some Byte.lf then withFeeds rest
    else (if b = Byte.cr then Byte.lf else b) :: withFeeds rest

/-- A line feed follows every carriage return, and stands nowhere else. -/
def Bytes.Paired (s : Bytes) : Prop :=
  s.head? ≠ some Byte.lf ∧ ∀ i < s.length, s[i]? = some Byte.cr ↔ s[i + 1]? = some Byte.lf

instance (s : Bytes) : Decidable s.Paired := inferInstanceAs (Decidable (_ ∧ _))

def Piece.withFeeds (p : Piece) : Piece := ⟨p.text, p.terminator.withFeeds⟩

namespace Bytes

theorem followed_cons (b : UInt8) (s : Bytes) :
    (∀ i < (b :: s).length, (b :: s)[i]? = some Byte.cr ↔ (b :: s)[i + 1]? = some Byte.lf) ↔
      (b = Byte.cr ↔ s.head? = some Byte.lf) ∧
        ∀ i < s.length, s[i]? = some Byte.cr ↔ s[i + 1]? = some Byte.lf := by
  rw [List.length_cons, Nat.forall_lt_succ_left]
  simp [List.head?_eq_getElem?]

theorem paired_nil : Paired [] := by decide

theorem paired_cons_of_plain {b : UInt8} (hcr : b ≠ Byte.cr) (hlf : b ≠ Byte.lf) (s : Bytes) :
    Paired (b :: s) ↔ Paired s := by
  rw [Paired, followed_cons, Paired]
  simp [hcr, hlf]

theorem paired_pair (s : Bytes) : Paired (Byte.cr :: Byte.lf :: s) ↔ Paired s := by
  rw [Paired, followed_cons, followed_cons, Paired]
  simp [Byte.cr, Byte.lf]

theorem not_paired_feed (s : Bytes) : ¬ Paired (Byte.lf :: s) := fun h => h.1 rfl

theorem not_paired_lone {s : Bytes} (hhead : s.head? ≠ some Byte.lf) : ¬ Paired (Byte.cr :: s) := by
  intro h
  exact hhead (((followed_cons _ _).mp h.2).1.mp rfl)

end Bytes

namespace Newline

theorem Ends.universal {rule : Newline} {t rest : Bytes} (h : rule.Ends t rest) :
    Newline.universal.Ends t rest := by
  cases h with
  | pair _ => exact .pair (by decide)
  | feed _ => exact .feed (by decide)
  | lone hhead => exact .lone hhead

theorem Free.of_universal {text : Bytes} (h : Newline.universal.Free text) (rule : Newline) :
    rule.Free text := by
  cases rule with
  | crlf => exact fun hpair => h.2 (hpair.subset (by simp))
  | lf => exact h.2
  | universal => exact h

/-- A cut under one rule is one under another that finds nothing more in its lines and the same at
their ends. -/
theorem Cut.transfer {rule other : Newline} {s : Bytes} {ps : List Piece} (h : rule.Cut s ps)
    (hfree : ∀ p ∈ ps, other.Free p.text)
    (hends : ∀ p ∈ ps, ∀ rest, rule.Ends p.terminator rest → other.Ends p.terminator rest) :
    other.Cut s ps := by
  induction h with
  | nil => exact .nil
  | last hne _ => exact .last hne (hfree _ List.mem_cons_self)
  | line _ ht _ ih =>
      rw [List.forall_mem_cons] at hfree hends
      exact .line hfree.1 (hends.1 _ ht) (ih hfree.2 hends.2)

theorem Cut.terminator {rule : Newline} {s : Bytes} {ps : List Piece} (h : rule.Cut s ps) {p : Piece}
    (hp : p ∈ ps) : p.terminator = [] ∨ ∃ rest, rule.Ends p.terminator rest := by
  obtain ⟨k, hk⟩ := List.mem_iff_getElem?.mp hp
  exact (h.ends hk).elim (fun hends => .inr ⟨_, hends⟩) fun hlast => .inl hlast.1

theorem enumerate_congr (rule other : Newline) {ps : List Piece}
    (h : ∀ p ∈ ps, Byte.lf ∉ p.text) (index offset : Nat) :
    Line.enumerate rule index offset ps = Line.enumerate other index offset ps := by
  induction ps generalizing index offset with
  | nil => rfl
  | cons p ps ih =>
      rw [List.forall_mem_cons] at h
      have hcontains : p.text.contains Byte.lf = false := by simpa using h.1
      rw [Line.enumerate, Line.enumerate, ih h.2, hcontains, Bool.and_false, Bool.and_false]

/-- A rule that ends a line wherever the universal rule does so cuts the source alike. -/
theorem pieces_eq_universal_of_ends {rule : Newline} {s : Bytes}
    (h : ∀ p ∈ Newline.universal.pieces s, ∀ rest,
      Newline.universal.Ends p.terminator rest → rule.Ends p.terminator rest) :
    rule.pieces s = Newline.universal.pieces s := by
  have huniversal := Newline.universal.cut_pieces s
  have hfree : ∀ p ∈ Newline.universal.pieces s, rule.Free p.text :=
    fun p hp => (huniversal.free p hp).of_universal rule
  exact (huniversal.transfer hfree h).eq_pieces.symm

/-- A rule reads the lines of the universal rule exactly if it cuts the source alike. -/
theorem split_eq_universal_iff (rule : Newline) (s : Bytes) :
    rule.split s = Newline.universal.split s ↔ rule.pieces s = Newline.universal.pieces s := by
  have hcut := rule.cut_pieces s
  have huniversal := Newline.universal.cut_pieces s
  constructor
  · intro hsplit
    have htexts : (rule.pieces s).map (·.text) = (Newline.universal.pieces s).map (·.text) := by
      rw [← enumerate_text rule 0 0, ← enumerate_text .universal 0 0]
      exact congrArg (List.map (·.text)) hsplit
    refine (hcut.transfer ?_ fun p _ rest => Ends.universal).eq_pieces
    intro p hp
    have hmem : p.text ∈ (Newline.universal.pieces s).map (·.text) :=
      htexts ▸ List.mem_map_of_mem hp
    obtain ⟨q, hq, hqp⟩ := List.mem_map.mp hmem
    exact hqp ▸ huniversal.free q hq
  · intro hpieces
    rw [split, split, hpieces]
    exact enumerate_congr rule .universal (fun p hp => (huniversal.free p hp).2) 0 0

/-! The rule of line feeds. -/

theorem Ends.feed_of_cr_not_mem {t rest : Bytes} (h : Newline.universal.Ends t rest)
    (hcr : Byte.cr ∉ t) : Newline.lf.Ends t rest := by
  cases h with
  | feed _ => exact .feed (by decide)
  | pair _ | lone _ => exact absurd List.mem_cons_self hcr

theorem Ends.cr_not_mem {t rest : Bytes} (h : Newline.lf.Ends t rest) : Byte.cr ∉ t := by
  cases h with
  | pair hrule => exact absurd rfl hrule
  | feed _ => decide

theorem Ends.eq_pair {t rest : Bytes} (h : Newline.crlf.Ends t rest) : t = [Byte.cr, Byte.lf] := by
  cases h with
  | pair _ => rfl
  | feed hrule => exact absurd rfl hrule

theorem lf_pieces_eq_universal_iff (s : Bytes) :
    Newline.lf.pieces s = Newline.universal.pieces s ↔ Byte.cr ∉ s := by
  have hcut := Newline.lf.cut_pieces s
  have huniversal := Newline.universal.cut_pieces s
  constructor
  · intro hpieces hcr
    rw [← hcut.bytes.1, List.mem_flatMap] at hcr
    obtain ⟨p, hp, hmem⟩ := hcr
    rcases List.mem_append.mp hmem with htext | hterminator
    · exact (huniversal.free p (hpieces ▸ hp)).1 htext
    · rcases hcut.terminator hp with hnil | ⟨rest, hends⟩
      · rw [hnil] at hterminator
        cases hterminator
      · exact hends.cr_not_mem hterminator
  · intro hcr
    refine pieces_eq_universal_of_ends fun p hp rest hends => ?_
    refine hends.feed_of_cr_not_mem fun hmem => hcr ?_
    rw [← huniversal.bytes.1]
    exact List.mem_flatMap_of_mem hp (List.mem_append_right _ hmem)

/-! The rule of pairs. -/

theorem Free.paired_append {text : Bytes} (h : Newline.universal.Free text) (s : Bytes) :
    Bytes.Paired (text ++ s) ↔ Bytes.Paired s := by
  induction text with
  | nil => rfl
  | cons b text ih => rw [List.cons_append, Bytes.paired_cons_of_plain h.head.1 h.head.2, ih h.tail]

theorem Ends.paired_append {t rest : Bytes} (h : Newline.universal.Ends t rest) :
    Bytes.Paired (t ++ rest) ↔ t = [Byte.cr, Byte.lf] ∧ Bytes.Paired rest := by
  cases h with
  | pair _ => simpa using Bytes.paired_pair rest
  | feed _ => simpa using Bytes.not_paired_feed rest
  | lone hhead => simpa using Bytes.not_paired_lone hhead

theorem Cut.paired_iff {s : Bytes} {ps : List Piece} (h : Newline.universal.Cut s ps) :
    s.Paired ↔ ∀ p ∈ ps, p.terminator = [] ∨ p.terminator = [Byte.cr, Byte.lf] := by
  induction h with
  | nil => simpa using Bytes.paired_nil
  | @last text _ htext =>
      have happend := htext.paired_append []
      rw [List.append_nil] at happend
      simpa [happend] using Bytes.paired_nil
  | line htext ht _ ih =>
      rw [htext.paired_append, ht.paired_append, ih, List.forall_mem_cons]
      simp [ht.ne_nil]

theorem crlf_pieces_eq_universal_iff (s : Bytes) :
    Newline.crlf.pieces s = Newline.universal.pieces s ↔ s.Paired := by
  have hcut := Newline.crlf.cut_pieces s
  rw [(Newline.universal.cut_pieces s).paired_iff]
  constructor
  · intro hpieces p hp
    refine (hcut.terminator (hpieces ▸ hp)).imp_right ?_
    rintro ⟨rest, hends⟩
    exact hends.eq_pair
  · intro hpairs
    refine pieces_eq_universal_of_ends fun p hp rest hends => ?_
    rw [(hpairs p hp).resolve_left hends.ne_nil]
    exact .pair (by decide)

/-! A source with a line feed for every line end. -/

theorem Free.withFeeds_append {text : Bytes} (h : Newline.universal.Free text) (s : Bytes) :
    (text ++ s).withFeeds = text ++ s.withFeeds := by
  induction text with
  | nil => rfl
  | cons b text ih =>
      rw [List.cons_append, Bytes.withFeeds, if_neg fun hb => h.head.1 hb.1, if_neg h.head.1,
        ih h.tail, List.cons_append]

theorem Ends.withFeeds_append {t rest : Bytes} (h : Newline.universal.Ends t rest) :
    (t ++ rest).withFeeds = Byte.lf :: rest.withFeeds := by
  cases h with
  | pair _ | feed _ => simp [Bytes.withFeeds, Byte.cr, Byte.lf]
  | lone hhead => simp [Bytes.withFeeds, hhead]

theorem Ends.withFeeds {t rest : Bytes} (h : Newline.universal.Ends t rest) :
    t.withFeeds = [Byte.lf] := by
  cases h with
  | pair _ | feed _ | lone _ => rfl

theorem Cut.withFeeds {s : Bytes} {ps : List Piece} (h : Newline.universal.Cut s ps) :
    Newline.lf.Cut s.withFeeds (ps.map Piece.withFeeds) := by
  induction h with
  | nil => exact .nil
  | @last text hne htext =>
      have hsame := htext.withFeeds_append []
      rw [List.append_nil] at hsame
      rw [hsame, Bytes.withFeeds, List.append_nil]
      exact .last hne (htext.of_universal .lf)
  | @line text t rest ps htext ht _ ih =>
      rw [htext.withFeeds_append, ht.withFeeds_append, List.map_cons, Piece.withFeeds, ht.withFeeds]
      exact .line (htext.of_universal .lf) (.feed (by decide)) ih

/-- The lines of the universal rule have the texts that the rule of line feeds finds once every line
end is a line feed. -/
theorem texts_withFeeds (s : Bytes) :
    (Newline.universal.split s).map (·.text) = (Newline.lf.split s.withFeeds).map (·.text) := by
  have hcut := (Newline.universal.cut_pieces s).withFeeds
  rw [split, split, enumerate_text, enumerate_text, ← hcut.eq_pieces, List.map_map]
  rfl

/-- Each carriage return ends a line here, the second one together with the line feed. -/
example : Bytes.withFeeds (utf8 "a\r\r\nb\r") = utf8 "a\n\nb\n" := by decide

theorem read_congr {rule other : Newline} {source : Bytes}
    (h : rule.split source = other.split source) (file : UInt32) (bag : Option Bag) :
    Program.read source file rule bag = Program.read source file other bag := by
  rw [Program.read, Program.read, Program.ofSource, Program.ofSource, Diagnostic.ofSource,
    Diagnostic.ofSource, h]

/-- The lines of the universal rule have the texts of the source with line feeds for its line ends.
They are the lines of the rule of line feeds just where there is no carriage return, and those of the
rule of pairs just where all line ends are pairs; there both rules read the same program. -/
theorem rules_agree (source : Bytes) :
    (Newline.universal.split source).map (·.text) =
        (Newline.lf.split source.withFeeds).map (·.text) ∧
      (Newline.lf.split source = Newline.universal.split source ↔ Byte.cr ∉ source) ∧
      (Newline.crlf.split source = Newline.universal.split source ↔ source.Paired) ∧
      (Byte.cr ∉ source → ∀ file bag,
        Program.read source file .lf bag = Program.read source file .universal bag) ∧
      (source.Paired → ∀ file bag,
        Program.read source file .crlf bag = Program.read source file .universal bag) := by
  have hfeeds : Newline.lf.split source = Newline.universal.split source ↔ Byte.cr ∉ source := by
    rw [split_eq_universal_iff, lf_pieces_eq_universal_iff]
  have hpairs : Newline.crlf.split source = Newline.universal.split source ↔ source.Paired := by
    rw [split_eq_universal_iff, crlf_pieces_eq_universal_iff]
  exact ⟨texts_withFeeds source, hfeeds, hpairs, fun h => read_congr (hfeeds.mpr h),
    fun h => read_congr (hpairs.mpr h)⟩

/-- A reserved line, an empty line and a last line without an end, under either kind of line end. -/
theorem rules_agree_on_empty_line :
    let feeds := utf8 "t\n\na"
    let pairs := utf8 "t\r\n\r\na"
    Byte.cr ∉ feeds ∧ pairs.Paired ∧
      Program.read feeds 7 .lf (some {}) = Program.read feeds 7 .universal (some {}) ∧
      Program.read pairs 7 .crlf (some {}) = Program.read pairs 7 .universal (some {}) := by
  intro feeds pairs
  have hfeeds : Byte.cr ∉ feeds := by decide
  have hpairs : pairs.Paired := by decide
  exact ⟨hfeeds, hpairs, (rules_agree feeds).2.2.2.1 hfeeds 7 (some {}),
    (rules_agree pairs).2.2.2.2 hpairs 7 (some {})⟩

end Newline
end Linewise
