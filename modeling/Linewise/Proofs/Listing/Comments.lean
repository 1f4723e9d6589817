import Linewise.Proofs.Listing.Reading
/-!
Comments in a listing. What the reader holds does not depend on where lines start or what they are
numbered, only what it reports does. So a comment line may be put into a text or taken out of it: all
that it can change is the optimized flag, and only if it starts as the marker and no instruction
stands before it.
-/
namespace Linewise

/-- The line is a comment, which blanks may indent. -/
def IsComment (line : Bytes) : Prop := (line.dropWhile Byte.isBlank).head? = some Byte.semicolon

/-- The line is a comment that starts as the marker, whatever follows. -/
def Marked (line : Bytes) : Prop := Listing.marker <+: line.dropWhile Byte.isBlank

instance (line : Bytes) : Decidable (Marked line) :=
  inferInstanceAs (Decidable (Listing.marker <+: line.dropWhile Byte.isBlank))

theorem IsComment.ofLine {line : Bytes} (h : IsComment line) :
    LineReading.ofLine line = .comment (line.dropWhile Byte.isBlank) := by
  obtain ⟨more, hmore⟩ := List.head?_eq_some_iff.mp h
  rw [LineReading.ofLine, hmore]
  rfl

/-- The listing with its optimized flag raised or left as it is. -/
def Listing.raise (raised : Bool) (l : Listing) : Listing :=
  { l with optimized := l.optimized || raised }

theorem Listing.raise_eq_self_iff (raised : Bool) (l : Listing) :
    l.raise raised = l ↔ (raised = true → l.optimized = true) := by
  constructor
  · rintro heq rfl
    rw [← heq]
    exact Bool.or_true _
  · intro h
    have hflag : (l.optimized || raised) = l.optimized := by
      cases raised with
      | false => exact Bool.or_false _
      | true => rw [h rfl, Bool.or_true]
    rw [raise, hflag]

namespace Reader

/-- Whatever the two readers reported, they hold the same, save that the second one's flag may have
been raised. -/
structure Mirrors (raised : Bool) (r r' : Reader) : Prop where
  instrs : r'.instrs = r.instrs
  optimized : r'.optimized = (r.optimized || raised)
  halted : r'.halted = r.halted
  trailing : r'.trailing = r.trailing
  ok : r'.ok = r.ok

theorem mirrors_nil : Mirrors false {} {} := ⟨rfl, rfl, rfl, rfl, rfl⟩

namespace Mirrors

variable {raised : Bool} {r r' : Reader} (file file' : UInt32) {l l' : Line}

theorem comment (h : Mirrors raised r r') (text : Bytes) :
    Mirrors raised (r.comment text) (r'.comment text) := by
  unfold Reader.comment
  rw [h.instrs]
  split
  · exact ⟨rfl, rfl, h.halted, h.trailing, h.ok⟩
  · exact h

theorem afterHalt (h : Mirrors raised r r') (l l' : Line) :
    Mirrors raised (r.afterHalt file l) (r'.afterHalt file' l') := by
  unfold Reader.afterHalt
  rw [h.trailing]
  split
  · exact ⟨h.instrs, h.optimized, h.halted, rfl, rfl⟩
  · exact ⟨h.instrs, h.optimized, h.halted, rfl, rfl⟩

theorem instruction (h : Mirrors raised r r') (op : Op) :
    Mirrors raised (r.instruction op) (r'.instruction op) :=
  ⟨congrArg (List.cons (⟨op, 0⟩ : Instr)) h.instrs, h.optimized, rfl, h.trailing, h.ok⟩

theorem fault (h : Mirrors raised r r') (l l' : Line) (cause : LineFault) :
    Mirrors raised (r.fault file l cause) (r'.fault file' l' cause) :=
  ⟨h.instrs, h.optimized, rfl, h.trailing, rfl⟩

/-- Only the text of a line matters. -/
theorem step (h : Mirrors raised r r') (htext : l'.text = l.text) :
    Mirrors raised (r.step file l) (r'.step file' l') := by
  unfold Reader.step
  rw [htext, h.halted]
  cases LineReading.ofLine l.text with
  | blank => exact h
  | comment text => exact h.comment text
  | instruction op =>
      dsimp only
      split
      · exact h.afterHalt file file' l l'
      · exact h.instruction op
  | fault cause =>
      dsimp only
      split
      · exact h.afterHalt file file' l l'
      · exact h.fault file file' l l' cause

theorem foldl (h : Mirrors raised r r') {ls ls' : List Line}
    (htexts : ls'.map (·.text) = ls.map (·.text)) :
    Mirrors raised (ls.foldl (Reader.step file) r) (ls'.foldl (Reader.step file') r') := by
  induction ls generalizing ls' r r' with
  | nil =>
      rw [List.map_nil, List.map_eq_nil_iff] at htexts
      rw [htexts]
      exact h
  | cons l ls ih =>
      obtain ⟨l', ls', rfl, htext, hrest⟩ := List.map_eq_cons_iff.mp htexts
      exact ih (h.step file file' htext) hrest

/-- A comment line that only the second reader meets raises the flag or does nothing. -/
theorem step_comment (h : Mirrors false r r') (hl : IsComment l'.text) :
    Mirrors (r.instrs.isEmpty && decide (Marked l'.text)) r (r'.step file' l') := by
  have hprefix : (Listing.marker.isPrefixOf (l'.text.dropWhile Byte.isBlank)) =
      decide (Marked l'.text) := by
    rw [Bool.eq_iff_iff, decide_eq_true_iff]
    exact List.isPrefixOf_iff_prefix
  unfold Reader.step
  rw [hl.ofLine]
  dsimp only
  rw [Reader.comment, h.instrs, hprefix]
  cases hraised : r.instrs.isEmpty && decide (Marked l'.text) with
  | false => exact h
  | true =>
      rw [if_pos rfl]
      exact ⟨rfl, (Bool.or_true _).symm, h.halted, h.trailing, h.ok⟩

/-- At the end both texts are refused, or their listings differ in the flag alone. -/
theorem listing?_finish (h : Mirrors raised r r') (text text' : Bytes) :
    (r'.finish file' text').listing? = ((r.finish file text).listing?).map (Listing.raise raised) :=
    by
  unfold Reader.finish
  rw [h.halted]
  split
  · unfold Reader.listing?
    rw [h.ok, h.instrs, h.optimized]
    split
    · rfl
    · rfl
  · rfl

end Mirrors
end Reader

theorem LineSpelled.eq_none_iff {line : Bytes} {o : Option Op} (h : LineSpelled line o)
    (hlf : Byte.lf ∉ line) : o = none ↔ Filler line := by
  constructor
  · rintro rfl
    cases h with
    | idle hs => exact hs
  · intro hs
    have hmeaning := (LineReading.meaning_ofLine hlf o).mpr h
    exact Option.some.inj (hmeaning.symm.trans (LineReading.meaning_ofLine_filler hs))

/-- As long as nothing was refused, there is an instruction for every line that could have one. -/
theorem Reader.instrs_eq_nil_iff {file : UInt32} {ls : List Line}
    (hlf : ∀ l ∈ ls, Byte.lf ∉ l.text) (hok : (ls.foldl (Reader.step file) {}).ok = true) :
    (ls.foldl (Reader.step file) {}).instrs = [] ↔ ∀ l ∈ ls, Filler l.text := by
  obtain ⟨os, hmeans, hfollows⟩ := Reader.follows_nil.of_foldl file hok
  have hinstrs := hfollows.instrs
  rw [List.nil_append] at hinstrs
  rw [← List.reverse_eq_nil_iff, hinstrs, List.map_eq_nil_iff]
  clear hinstrs hfollows hok
  induction hmeans with
  | nil => simp
  | @cons l o ls os hl _ ih =>
      rw [List.forall_mem_cons] at hlf ⊢
      have ho := ((LineReading.meaning_ofLine hlf.1 o).mp hl).eq_none_iff hlf.1
      cases o with
      | none =>
          rw [List.reduceOption_cons_of_none]
          exact (ih hlf.2).trans (and_iff_right (ho.mp rfl)).symm
      | some op =>
          rw [List.reduceOption_cons_of_some]
          exact iff_of_false (List.cons_ne_nil _ _) fun h => nomatch ho.mpr h.1

namespace Listing

/-- What is read depends on the lines of a text alone; the file only occurs in reports. -/
theorem read_congr {text text' : Bytes} (h : Newline.lfLines text' = Newline.lfLines text)
    (file file' : UInt32) (bag bag' : Option Bag) :
    (Listing.read text' file' bag').1 = (Listing.read text file bag).1 := by
  have hend := (Reader.mirrors_nil.foldl file file' h).listing?_finish file file' text text'
  have hraise : raise false = id := funext fun l => (l.raise_eq_self_iff false).mpr nofun
  rw [hraise, Option.map_id] at hend
  exact hend

/-- The second text has one line more than the first, a comment behind the lines of `front`. -/
structure Commented (text text' : Bytes) (front : List Bytes) (comment : Bytes) (back : List Bytes) :
    Prop where
  plain : Newline.lfLines text = front ++ back
  commented : Newline.lfLines text' = front ++ comment :: back
  comment : IsComment comment

/-- A comment line can be put wherever a line starts. -/
theorem commented_of_insert {a b comment : Bytes} (ha : a = [] ∨ a.getLast? = some Byte.lf)
    (hlf : Byte.lf ∉ comment) (hc : IsComment comment) :
    Commented (a ++ b) (a ++ (comment ++ Byte.lf :: b)) (Newline.lfLines a) comment
      (Newline.lfLines b) where
  plain := Newline.lfLines_append_of_ends ha b
  commented := by rw [Newline.lfLines_append_of_ends ha, Newline.lfLines_append hlf]
  comment := hc

/-- A comment line more or less changes nothing but the optimized flag of what is read. -/
theorem Commented.read_eq {text text' : Bytes} {front : List Bytes} {comment : Bytes}
    {back : List Bytes} (h : Commented text text' front comment back) (file : UInt32)
    (bag : Option Bag) :
    ∃ raised : Bool,
      (Listing.read text' file bag).1 = (Listing.read text file bag).1.map (Listing.raise raised) ∧
      ((Listing.read text file bag).1.isSome →
        (raised = true ↔ Marked comment ∧ ∀ line ∈ front, Filler line)) := by
  obtain ⟨ls, ms, hsplit, hls, hms⟩ := List.map_eq_append_iff.mp h.plain
  obtain ⟨ls', ms', hsplit', hls', hms'⟩ := List.map_eq_append_iff.mp h.commented
  obtain ⟨c, ms', rfl, hc, hback⟩ := List.map_eq_cons_iff.mp hms'
  have hfront := Reader.mirrors_nil.foldl file file (hls'.trans hls.symm)
  have hcomment : IsComment c.text := hc ▸ h.comment
  have hbehind := hfront.step_comment file hcomment
  have hend := hbehind.foldl file file (hback.trans hms.symm)
  refine ⟨(ls.foldl (Reader.step file) {}).instrs.isEmpty && decide (Marked c.text), ?_, ?_⟩
  · have hfinish := hend.listing?_finish file file text text'
    rw [← List.foldl_cons, ← List.foldl_append, ← List.foldl_append, ← hsplit, ← hsplit'] at hfinish
    exact hfinish
  · intro hread
    obtain ⟨l, hl⟩ := Option.isSome_iff_exists.mp hread
    have hok := (ok_of_read hl).1
    rw [hsplit, List.foldl_append] at hok
    have hokFront : (ls.foldl (Reader.step file) {}).ok = true := by
      by_contra hnot
      rw [Reader.foldl_not_ok file (Bool.eq_false_iff.mpr hnot)] at hok
      cases hok
    have hlf : ∀ l ∈ ls, Byte.lf ∉ l.text := fun l hl =>
      Newline.lf_not_mem_of_mem_lfLines (s := text)
        (List.mem_map_of_mem (hsplit ▸ List.mem_append_left _ hl))
    rw [Bool.and_eq_true, List.isEmpty_iff, Reader.instrs_eq_nil_iff hlf hokFront, decide_eq_true_iff,
      hc, and_comm, ← hls, List.forall_mem_map]

end Listing
end Linewise
