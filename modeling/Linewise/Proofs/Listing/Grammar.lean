import Linewise.Listing.Text
import Linewise.Proofs.Listing.Literal
import Mathlib.Data.List.ReduceOption
/-!
The grammar of a listing's lines, and the reader of one line measured against it. A line is blank, a
comment or one instruction; what the reader takes a line for is what the grammar lets it mean, and
there is no more than one such meaning.
-/
namespace Linewise

/-- Blanks, with a comment after them or not. -/
inductive Filler : Bytes → Prop
  | blanks {s} : Blanks s → Filler s
  | comment {s text} : Blanks s → Filler (s ++ Byte.semicolon :: text)

/-- The spellings of an instruction. -/
inductive Op.Spelled : Op → Bytes → Prop
  | append {blanks literal text} : Blanks blanks → Literal.Quoted literal text →
      Spelled (.append text) (utf8 "append" ++ (blanks ++ literal))
  | printLiteral {blanks literal text} : Blanks blanks → Literal.Quoted literal text →
      Spelled (.printLiteral text) (utf8 "printlit" ++ (blanks ++ literal))
  | print : Spelled .print (utf8 "print")
  | halt : Spelled .halt (utf8 "halt")

/-- The lines of a listing, each with its instruction if it has one. -/
inductive LineSpelled : Bytes → Option Op → Prop
  | idle {s} : Filler s → LineSpelled s none
  | instruction {before s after op} : Blanks before → op.Spelled s → Filler after →
      LineSpelled (before ++ (s ++ after)) (some op)

def IdleAfterHalt (os : List (Option Op)) : Prop :=
  os.Pairwise fun o o' => o = some .halt → o' = none

instance (os : List (Option Op)) : Decidable (IdleAfterHalt os) :=
  inferInstanceAs (Decidable (os.Pairwise fun o o' => o = some .halt → o' = none))

/-- Exactly one line has a halt, and the lines after it have no instruction. -/
structure HaltLast (os : List (Option Op)) : Prop where
  once : os.count (some .halt) = 1
  idle : IdleAfterHalt os

/-- The text, cut at its line feeds, spells these operations. -/
def Listing.Spells (text : Bytes) (ops : List Op) : Prop :=
  ∃ os, List.Forall₂ LineSpelled (text.splitOn Byte.lf) os ∧ HaltLast os ∧ ops = os.reduceOption

theorem haltLast_iff (os : List (Option Op)) :
    HaltLast os ↔ some .halt ∈ os ∧ IdleAfterHalt os := by
  refine ⟨fun h => ⟨List.count_pos_iff.mp (by rw [h.once]; exact Nat.one_pos), h.idle⟩, ?_⟩
  rintro ⟨hmem, hidle⟩
  refine ⟨?_, hidle⟩
  induction os with
  | nil => cases hmem
  | cons o os ih =>
      obtain ⟨hafter, hos⟩ := List.pairwise_cons.mp hidle
      by_cases ho : o = some .halt
      · have hnone : some Op.halt ∉ os := fun h => by cases hafter _ h ho
        rw [ho, List.count_cons_self, List.count_eq_zero_of_not_mem hnone]
      · rw [List.count_cons_of_ne ho]
        exact ih ((List.mem_cons.mp hmem).resolve_left (Ne.symm ho)) hos

theorem haltLast_append {front after : List (Option Op)} (hfront : some .halt ∉ front)
    (hafter : ∀ o ∈ after, o = none) : HaltLast (front ++ some .halt :: after) := by
  refine (haltLast_iff _).mpr ⟨List.mem_append_right _ List.mem_cons_self, ?_⟩
  refine List.pairwise_append.mpr ⟨?_, List.pairwise_cons.mpr ⟨fun o ho _ => hafter o ho, ?_⟩, ?_⟩
  · exact List.pairwise_of_forall_mem_list fun o ho _ _ heq => absurd (heq ▸ ho) hfront
  · exact List.pairwise_of_forall_mem_list fun _ _ o ho _ => hafter o ho
  · exact fun o ho _ _ heq => absurd (heq ▸ ho) hfront

theorem HaltLast.reduceOption {os : List (Option Op)} (h : HaltLast os) :
    ∃ front, os.reduceOption = front ++ [.halt] ∧ Op.halt ∉ front := by
  obtain ⟨hmem, hidle⟩ := (haltLast_iff os).mp h
  clear h
  induction os with
  | nil => cases hmem
  | cons o os ih =>
      obtain ⟨hafter, hos⟩ := List.pairwise_cons.mp hidle
      by_cases ho : o = some .halt
      · have hnone : os.reduceOption = [] := by
          rw [List.eq_nil_iff_forall_not_mem]
          intro op hop
          cases hafter _ (List.reduceOption_mem_iff.mp hop) ho
        exact ⟨[], by rw [ho, List.reduceOption_cons_of_some, hnone]; rfl, List.not_mem_nil⟩
      · obtain ⟨front, hfront, hne⟩ := ih ((List.mem_cons.mp hmem).resolve_left (Ne.symm ho)) hos
        cases o with
        | none => exact ⟨front, by rw [List.reduceOption_cons_of_none, hfront], hne⟩
        | some op =>
            refine ⟨op :: front, by rw [List.reduceOption_cons_of_some, hfront]; rfl, ?_⟩
            rw [List.mem_cons, not_or]
            exact ⟨fun heq => ho (heq ▸ rfl), hne⟩

theorem filler_iff_blanks_or (s : Bytes) :
    Filler s ↔ Blanks s ∨ ∃ text, s.dropWhile Byte.isBlank = Byte.semicolon :: text := by
  have hsemicolon : Byte.isBlank Byte.semicolon = false := by decide
  constructor
  · rintro (hs | @⟨front, text, hfront⟩)
    · exact .inl hs
    · exact .inr ⟨text, (dropWhile_isBlank_eq_cons_iff _ _ _).mpr ⟨hsemicolon, front, hfront, rfl⟩⟩
  · rintro (hs | ⟨text, htext⟩)
    · exact .blanks hs
    · obtain ⟨_, front, hfront, rfl⟩ := (dropWhile_isBlank_eq_cons_iff _ _ _).mp htext
      exact .comment hfront

namespace LineReading

/-- What a line is taken for: no instruction, an instruction, or nothing at all if it is faulty. -/
def meaning? : LineReading → Option (Option Op)
  | .blank | .comment _ => some none
  | .instruction op => some (some op)
  | .fault _ => none

theorem meaning_ofRest (size : Nat) (op : Op) (rest : Bytes) (o : Option Op) :
    (ofRest size op rest).meaning? = some o ↔ o = some op ∧ Filler rest := by
  rw [filler_iff_blanks_or, blanks_iff_dropWhile, ofRest]
  cases rest.dropWhile Byte.isBlank with
  | nil => simp [meaning?, eq_comm]
  | cons b more =>
      by_cases hb : b = Byte.semicolon
      · simp [hb, meaning?, eq_comm]
      · simp [hb, meaning?]

theorem meaning_ofLiteral (size : Nat) (op : Bytes → Op) {rest : Bytes} (hlf : Byte.lf ∉ rest)
    (o : Option Op) :
    (ofLiteral size op rest).meaning? = some o ↔
      ∃ text blanks literal after, o = some (op text) ∧ Blanks blanks ∧
        Literal.Quoted literal text ∧ Filler after ∧ rest = blanks ++ literal ++ after := by
  unfold ofLiteral
  constructor
  · intro h
    split at h
    · rename_i text after heq
      obtain ⟨blanks, literal, hblanks, hliteral, hrest⟩ :=
        (Literal.read_eq_ok_iff hlf text after).mp heq
      obtain ⟨ho, hafter⟩ := (meaning_ofRest _ _ _ _).mp h
      exact ⟨text, blanks, literal, after, ho, hblanks, hliteral, hafter, hrest⟩
    · cases h
  · rintro ⟨text, blanks, literal, after, ho, hblanks, hliteral, hafter, hrest⟩
    have hread := (Literal.read_eq_ok_iff hlf text after).mpr
      ⟨blanks, literal, hblanks, hliteral, hrest⟩
    rw [hread]
    exact (meaning_ofRest _ _ _ _).mpr ⟨ho, hafter⟩

theorem spelled_of_ofWord {size start : Nat} {word rest : Bytes} (hlf : Byte.lf ∉ rest)
    {o : Option Op} (h : (ofWord size start word rest).meaning? = some o) :
    ∃ op s after, o = some op ∧ op.Spelled s ∧ Filler after ∧ word ++ rest = s ++ after := by
  unfold ofWord at h
  split_ifs at h with happend hprintlit hprint hhalt
  · obtain ⟨text, blanks, literal, after, ho, hblanks, hliteral, hafter, rfl⟩ :=
      (meaning_ofLiteral _ _ hlf _).mp h
    refine ⟨_, _, after, ho, .append hblanks hliteral, hafter, ?_⟩
    simp only [happend, List.append_assoc]
  · obtain ⟨text, blanks, literal, after, ho, hblanks, hliteral, hafter, rfl⟩ :=
      (meaning_ofLiteral _ _ hlf _).mp h
    refine ⟨_, _, after, ho, .printLiteral hblanks hliteral, hafter, ?_⟩
    simp only [hprintlit, List.append_assoc]
  · obtain ⟨ho, hafter⟩ := (meaning_ofRest _ _ _ _).mp h
    exact ⟨_, _, rest, ho, .print, hafter, by rw [hprint]⟩
  · obtain ⟨ho, hafter⟩ := (meaning_ofRest _ _ _ _).mp h
    exact ⟨_, _, rest, ho, .halt, hafter, by rw [hhalt]⟩
  · cases h

/-- The reader of a line finds the word that opens it. -/
theorem ofLine_word {before word tail : Bytes} (hbefore : Blanks before) (hne : word ≠ [])
    (hall : word.all isWordByte = true) (htail : ∀ b ∈ tail.head?, isWordByte b = false) :
    ofLine (before ++ (word ++ tail)) =
      ofWord (before ++ (word ++ tail)).length before.length word tail := by
  have hword : ∀ b ∈ word, isWordByte b = true := List.all_eq_true.mp hall
  obtain ⟨b, word, rfl⟩ := List.exists_cons_of_ne_nil hne
  have hb : Byte.isBlank b = false ∧ b ≠ Byte.semicolon := by
    have := hword b List.mem_cons_self
    simp [isWordByte] at this
    exact ⟨this.1.1, this.1.2⟩
  have hdrop : (before ++ (b :: word ++ tail)).dropWhile Byte.isBlank = b :: (word ++ tail) :=
    (dropWhile_isBlank_eq_cons_iff _ _ _).mpr ⟨hb.1, before, hbefore, rfl⟩
  have htake : tail.takeWhile isWordByte = [] ∧ tail.dropWhile isWordByte = tail := by
    cases tail with
    | nil => exact ⟨rfl, rfl⟩
    | cons c tail => simp [htail c rfl]
  have hstart : (before ++ (b :: word ++ tail)).length - (b :: word ++ tail).length =
      before.length := by
    rw [List.length_append, Nat.add_sub_cancel]
  rw [ofLine, hdrop]
  simp only [if_neg hb.2]
  rw [← List.cons_append, List.takeWhile_append_of_pos hword, List.dropWhile_append_of_pos hword,
    htake.1, htake.2, List.append_nil, hstart]

theorem meaning_ofLine_filler {s : Bytes} (h : Filler s) : (ofLine s).meaning? = some none := by
  rw [ofLine]
  rcases (filler_iff_blanks_or s).mp h with hs | ⟨text, htext⟩
  · rw [(blanks_iff_dropWhile s).mp hs]
    rfl
  · rw [htext]
    rfl

theorem isWordByte_of_isBlank {b : UInt8} (h : Byte.isBlank b = true) : isWordByte b = false := by
  simp [isWordByte, h]

theorem not_isWordByte_of_filler {s : Bytes} (h : Filler s) :
    ∀ b ∈ s.head?, isWordByte b = false := by
  cases h with
  | blanks hs =>
      intro b hb
      exact isWordByte_of_isBlank ((isBlank_iff b).mpr (hs b (List.mem_of_head? hb)))
  | @comment front text hfront =>
      cases front with
      | nil =>
          rintro _ ⟨⟩
          decide
      | cons c front =>
          rintro _ ⟨⟩
          exact isWordByte_of_isBlank ((isBlank_iff c).mpr (hfront c List.mem_cons_self))

theorem not_isWordByte_of_quoted {blanks literal text : Bytes} (hblanks : Blanks blanks)
    (hliteral : Literal.Quoted literal text) (after : Bytes) :
    ∀ b ∈ (blanks ++ literal ++ after).head?, isWordByte b = false := by
  cases blanks with
  | nil =>
      obtain ⟨body, _, rfl⟩ := hliteral
      rintro _ ⟨⟩
      decide
  | cons c blanks =>
      rintro _ ⟨⟩
      exact isWordByte_of_isBlank ((isBlank_iff c).mpr (hblanks c List.mem_cons_self))

theorem meaning_ofLine_spelled {before s after : Bytes} {op : Op} (hbefore : Blanks before)
    (hs : op.Spelled s) (hafter : Filler after) (hlf : Byte.lf ∉ before ++ (s ++ after)) :
    (ofLine (before ++ (s ++ after))).meaning? = some (some op) := by
  simp only [List.mem_append, not_or] at hlf
  cases hs with
  | @append blanks literal text hblanks hliteral =>
      have hrest : Byte.lf ∉ blanks ++ literal ++ after := by
        simp only [List.mem_append, not_or] at hlf ⊢
        exact ⟨hlf.2.1.2, hlf.2.2⟩
      rw [List.append_assoc, ofLine_word hbefore (by decide) (by decide)
        (not_isWordByte_of_quoted hblanks hliteral after), ofWord, if_pos rfl,
        meaning_ofLiteral _ _ hrest]
      exact ⟨text, blanks, literal, after, rfl, hblanks, hliteral, hafter, rfl⟩
  | @printLiteral blanks literal text hblanks hliteral =>
      have hrest : Byte.lf ∉ blanks ++ literal ++ after := by
        simp only [List.mem_append, not_or] at hlf ⊢
        exact ⟨hlf.2.1.2, hlf.2.2⟩
      rw [List.append_assoc, ofLine_word hbefore (by decide) (by decide)
        (not_isWordByte_of_quoted hblanks hliteral after), ofWord, if_neg (by decide), if_pos rfl,
        meaning_ofLiteral _ _ hrest]
      exact ⟨text, blanks, literal, after, rfl, hblanks, hliteral, hafter, rfl⟩
  | print =>
      rw [ofLine_word hbefore (by decide) (by decide) (not_isWordByte_of_filler hafter), ofWord,
        if_neg (by decide), if_neg (by decide), if_pos rfl, meaning_ofRest]
      exact ⟨rfl, hafter⟩
  | halt =>
      rw [ofLine_word hbefore (by decide) (by decide) (not_isWordByte_of_filler hafter), ofWord,
        if_neg (by decide), if_neg (by decide), if_neg (by decide), if_pos rfl, meaning_ofRest]
      exact ⟨rfl, hafter⟩

theorem spelled_of_ofLine {line : Bytes} (hlf : Byte.lf ∉ line) {o : Option Op}
    (h : (ofLine line).meaning? = some o) : LineSpelled line o := by
  unfold ofLine at h
  split at h
  · rename_i heq
    cases h
    exact .idle (.blanks ((blanks_iff_dropWhile line).mpr heq))
  · rename_i b more heq
    split_ifs at h with hb
    · subst hb
      cases h
      exact .idle ((filler_iff_blanks_or line).mpr (.inr ⟨more, heq⟩))
    · obtain ⟨_, before, hbefore, rfl⟩ := (dropWhile_isBlank_eq_cons_iff _ _ _).mp heq
      have hrest : Byte.lf ∉ (b :: more).dropWhile isWordByte := fun hmem =>
        hlf (List.mem_append_right _ ((List.dropWhile_sublist _).subset hmem))
      obtain ⟨op, s, after, rfl, hs, hafter, hmore⟩ := spelled_of_ofWord hrest h
      rw [List.takeWhile_append_dropWhile] at hmore
      rw [hmore]
      exact .instruction hbefore hs hafter

/-- A line is taken for exactly what the grammar lets it mean. -/
theorem meaning_ofLine {line : Bytes} (hlf : Byte.lf ∉ line) (o : Option Op) :
    (ofLine line).meaning? = some o ↔ LineSpelled line o := by
  refine ⟨spelled_of_ofLine hlf, fun h => ?_⟩
  cases h with
  | idle hs => exact meaning_ofLine_filler hs
  | instruction hbefore hs hafter => exact meaning_ofLine_spelled hbefore hs hafter hlf

end LineReading

theorem Op.write_spelled (op : Op) : op.Spelled op.write := by
  have hblank : Blanks (utf8 " ") := by decide
  cases op with
  | append text =>
      have h := Spelled.append hblank (Literal.write_quoted text)
      rwa [← List.append_assoc] at h
  | printLiteral text =>
      have h := Spelled.printLiteral hblank (Literal.write_quoted text)
      rwa [← List.append_assoc] at h
  | print => exact .print
  | halt => exact .halt

theorem Op.lf_not_mem_write (op : Op) : Byte.lf ∉ op.write := by
  have hliteral : ∀ text, Byte.lf ∉ Literal.write text := fun text =>
    (Literal.write_quoted text).lf_not_mem
  cases op with
  | append text | printLiteral text =>
      simp only [Op.write, Op.literal?, Op.word, List.mem_append, not_or]
      exact ⟨⟨by decide, by decide⟩, hliteral text⟩
  | print | halt => decide

theorem lineSpelled_write (op : Op) : LineSpelled op.write (some op) := by
  have h := LineSpelled.instruction blanks_nil op.write_spelled (.blanks blanks_nil)
  rwa [List.nil_append, List.append_nil] at h

theorem LineReading.ofLine_write (op : Op) : ofLine op.write = .instruction op := by
  have h := (meaning_ofLine op.lf_not_mem_write _).mpr (lineSpelled_write op)
  cases hr : ofLine op.write with
  | blank | comment text | fault cause => simp [hr, meaning?] at h
  | instruction op' => simpa [hr, meaning?] using h

/-- A written instruction is told from the blanks and the comment behind it. -/
theorem Op.write_append_inj {op op' : Op} {s t : Bytes} (hs : Filler s) (ht : Filler t)
    (hlf : Byte.lf ∉ s) (hlf' : Byte.lf ∉ t) (h : op.write ++ s = op'.write ++ t) :
    op = op' ∧ s = t := by
  have hread (op : Op) {s : Bytes} (hs : Filler s) (hlf : Byte.lf ∉ s) :
      (LineReading.ofLine (op.write ++ s)).meaning? = some (some op) := by
    have hline : Byte.lf ∉ op.write ++ s := by
      rw [List.mem_append, not_or]
      exact ⟨op.lf_not_mem_write, hlf⟩
    exact (LineReading.meaning_ofLine hline _).mpr
      (.instruction blanks_nil op.write_spelled hs)
  have hop : op = op' := by
    have hsame := hread op hs hlf
    rw [h, hread op' ht hlf'] at hsame
    exact (Option.some.inj (Option.some.inj hsame)).symm
  subst hop
  exact ⟨rfl, List.append_cancel_left h⟩

end Linewise
