import Linewise.Listing.Reader
import Mathlib.Data.List.Basic
import Mathlib.Data.List.TakeWhile
/-!
Where the reader's diagnostics start: on a byte of the line that they are about, or at the end of
that line right behind a word whose literal is missing. Only the missing halt is about no line.
What a step over a line may do to the reports is said once, as the moves of the reader.
-/
namespace Linewise

/-- How far into a line the report of its fault starts. -/
def LineFault.start : LineFault → Nat
  | .unknownOpcode start _ | .malformedLiteral start _ | .trailingText start _ => start

namespace LineReading

/-- A byte of the line lies at the offset, or a word of the line ends there and the line with it. -/
def PointsInto (line : Bytes) (i : Nat) : Prop :=
  i < line.length ∨ i = line.length ∧ ∃ b ∈ line.getLast?, isWordByte b = true

theorem start_ofRest {size : Nat} {op : Op} {rest : Bytes} {cause : LineFault} (hsize : 0 < size)
    (h : ofRest size op rest = .fault cause) : cause.start < size := by
  unfold ofRest at h
  split at h
  · cases h
  · split_ifs at h
    cases h
    exact Nat.sub_lt hsize (Nat.succ_pos _)

theorem start_ofLiteral {size : Nat} {op : Bytes → Op} {rest : Bytes} {cause : LineFault}
    (hsize : 0 < size) (h : ofLiteral size op rest = .fault cause) :
    cause.start < size ∨ cause.start = size ∧ rest = [] := by
  unfold ofLiteral at h
  split at h
  · exact .inl (start_ofRest hsize h)
  · cases h
    cases rest with
    | nil => exact .inr ⟨rfl, rfl⟩
    | cons b rest => exact .inl (Nat.sub_lt hsize (Nat.succ_pos _))

theorem start_ofWord {size start : Nat} {word rest : Bytes} {cause : LineFault} (hsize : 0 < size)
    (hstart : start < size) (h : ofWord size start word rest = .fault cause) :
    cause.start < size ∨ cause.start = size ∧ rest = [] := by
  unfold ofWord at h
  split_ifs at h
  · exact start_ofLiteral hsize h
  · exact start_ofLiteral hsize h
  · exact .inl (start_ofRest hsize h)
  · exact .inl (start_ofRest hsize h)
  · cases h
    exact .inl hstart

theorem pointsInto_of_fault {line : Bytes} {cause : LineFault} (h : ofLine line = .fault cause) :
    PointsInto line cause.start := by
  unfold ofLine at h
  split at h
  · cases h
  · rename_i b more heq
    split_ifs at h
    have hline : line = line.takeWhile Byte.isBlank ++ b :: more := by
      rw [← heq, List.takeWhile_append_dropWhile]
    have hsize : 0 < line.length := by
      rw [hline, List.length_append]
      exact Nat.add_pos_right _ (Nat.succ_pos _)
    rcases start_ofWord hsize (Nat.sub_lt hsize (Nat.succ_pos _)) h with hlt | ⟨heq, hrest⟩
    · exact .inl hlt
    · -- Nothing follows the word, so it ends the line.
      refine .inr ⟨heq, (b :: more).getLast (List.cons_ne_nil _ _), ?_, ?_⟩
      · rw [hline, List.getLast?_append_of_ne_nil _ (List.cons_ne_nil _ _)]
        exact List.getLast?_eq_some_getLast _
      · exact List.dropWhile_eq_nil_iff.mp hrest _ (List.getLast_mem _)

end LineReading

/-- The diagnostic starts on this line. -/
structure Diagnostic.StartsOn (d : Diagnostic) (file : UInt32) (l : Line) : Prop where
  file : d.span.file = file
  start : ∃ i, d.span.lo = l.start + UInt32.ofNat i ∧ LineReading.PointsInto l.text i

theorem Diagnostic.startsOn_ofFault (file : UInt32) {l : Line} {cause : LineFault}
    (h : LineReading.ofLine l.text = .fault cause) : (ofFault file l cause).StartsOn file l := by
  have hinto := LineReading.pointsInto_of_fault h
  cases cause with
  | unknownOpcode start word =>
      rw [ofFault]
      split
      · exact ⟨rfl, start, rfl, hinto⟩
      · exact ⟨rfl, start, rfl, hinto⟩
  | malformedLiteral start cause => exact ⟨rfl, start, rfl, hinto⟩
  | trailingText start op => exact ⟨rfl, start, rfl, hinto⟩

theorem Diagnostic.startsOn_trailingAfterHalt (file : UInt32) {l : Line} (h : l.text ≠ []) :
    (trailingAfterHalt file l).StartsOn file l :=
  ⟨rfl, 0, (UInt32.add_zero _).symm, .inl (List.length_pos_iff.mpr h)⟩

/-- What the reader may report of a line: its fault, or that it stands behind a halt. -/
inductive Diagnostic.Reported (file : UInt32) (l : Line) : Diagnostic → Prop
  | fault {cause : LineFault} (h : LineReading.ofLine l.text = .fault cause) :
      Reported file l (ofFault file l cause)
  | afterHalt (h : l.text ≠ []) : Reported file l (trailingAfterHalt file l)

theorem Diagnostic.Reported.startsOn {d : Diagnostic} {file : UInt32} {l : Line}
    (h : Reported file l d) : d.StartsOn file l := by
  cases h with
  | fault h => exact startsOn_ofFault file h
  | afterHalt h => exact startsOn_trailingAfterHalt file h

namespace Reader

/-- What a step over a line does to what the reader reports. Behind a halt only the first line with
content is reported, and the others are refused without a word. -/
inductive Moves (file : UInt32) (r : Reader) (l : Line) (r' : Reader) : Prop
  | quiet (ok : r'.ok = r.ok) (found : r'.found = r.found) (trailing : r'.trailing = r.trailing)
  | refused (d : Diagnostic) (reported : d.Reported file l) (ok : r'.ok = false)
      (found : r'.found = d :: r.found)
      (trailing : r'.trailing = (r.trailing || d.finding = .trailingAfterHalt))
      (once : d.finding = .trailingAfterHalt → r.trailing = false)
  | again (before : r.trailing = true) (ok : r'.ok = false) (found : r'.found = r.found)
      (trailing : r'.trailing = r.trailing)

theorem afterHalt_moves (file : UInt32) (r : Reader) {l : Line} (hl : l.text ≠ []) :
    r.Moves file l (r.afterHalt file l) := by
  unfold afterHalt
  split_ifs with htrailing
  · exact .again htrailing rfl rfl rfl
  · have hfirst : r.trailing = false := Bool.not_eq_true _ ▸ htrailing
    exact .refused _ (.afterHalt hl) rfl rfl
      (by simp [Diagnostic.trailingAfterHalt, Diagnostic.inListing]) fun _ => hfirst

theorem step_moves (file : UInt32) (r : Reader) (l : Line) : r.Moves file l (r.step file l) := by
  -- An empty line is blank, and nothing is reported of it.
  have hne {reading : LineReading} (h : LineReading.ofLine l.text = reading)
      (hblank : reading ≠ .blank) : l.text ≠ [] := by
    rintro hnil
    rw [hnil] at h
    exact hblank h.symm
  unfold step
  split
  · exact .quiet rfl rfl rfl
  · rw [comment]
    split_ifs
    · exact .quiet rfl rfl rfl
    · exact .quiet rfl rfl rfl
  · rename_i op hop
    split_ifs
    · exact r.afterHalt_moves file (hne hop (by simp))
    · exact .quiet rfl rfl rfl
  · rename_i cause hcause
    split_ifs
    · exact r.afterHalt_moves file (hne hcause (by simp))
    · have hfinding : (Diagnostic.ofFault file l cause).finding ≠ .trailingAfterHalt := by
        cases cause with
        | unknownOpcode start w =>
            rw [Diagnostic.ofFault]
            split_ifs
            · simp [Diagnostic.inListing]
            · simp [Diagnostic.inListing]
        | malformedLiteral | trailingText => simp [Diagnostic.ofFault, Diagnostic.inListing]
      exact .refused _ (.fault hcause) rfl rfl (by simp [fault, refuse, hfinding])
        fun h => absurd h hfinding

variable {file : UInt32} {r : Reader} {d : Diagnostic}

theorem mem_found_step {l : Line} (hd : d ∈ (r.step file l).found) :
    d ∈ r.found ∨ d.StartsOn file l := by
  cases r.step_moves file l with
  | quiet _ found _ => exact .inl (found ▸ hd)
  | again _ _ found _ => exact .inl (found ▸ hd)
  | refused e reported _ found _ _ =>
      rw [found] at hd
      rcases List.mem_cons.mp hd with rfl | hd
      · exact .inr reported.startsOn
      · exact .inl hd

theorem mem_found_foldl {ls : List Line} (hd : d ∈ (ls.foldl (Reader.step file) r).found) :
    d ∈ r.found ∨ ∃ l ∈ ls, d.StartsOn file l := by
  induction ls generalizing r with
  | nil => exact .inl hd
  | cons l ls ih =>
      rcases ih hd with hstep | ⟨m, hm, hstarts⟩
      · exact (mem_found_step hstep).imp_right fun hl => ⟨l, List.mem_cons_self, hl⟩
      · exact .inr ⟨m, List.mem_cons_of_mem l hm, hstarts⟩

end Reader

/-- All that is reported of a text but a missing halt starts on one of its lines. -/
theorem Listing.startsOn_of_read {text : Bytes} {file : UInt32} {d : Diagnostic}
    (hd : d ∈ ((Listing.read text file (some {})).2.getD {}).diagnostics)
    (hfinding : d.finding ≠ .missingHalt) :
    ∃ l ∈ Newline.lf.split text, d.StartsOn file l := by
  have hfound : d ∈ (((Newline.lf.split text).foldl (Reader.step file) {}).finish file text).found :=
    by simpa [Listing.read, Bag.report] using hd
  unfold Reader.finish at hfound
  split at hfound
  · exact (Reader.mem_found_foldl hfound).resolve_left (List.not_mem_nil)
  · rcases List.mem_cons.mp hfound with rfl | hfound
    · exact absurd rfl hfinding
    · exact (Reader.mem_found_foldl hfound).resolve_left (List.not_mem_nil)

end Linewise
