import Linewise.Proofs.Settings.Assignments
import Linewise.Proofs.Settings.Grammar
/-!
Settings files as a whole. The lines before the first erroneous one take effect and nothing behind
them does: the values, the error and the warnings of a file are told by those lines alone.
-/
namespace Linewise.Settings

/-- Without its comment and its outer blanks the line is none of the entries. -/
def Erroneous (line : Bytes) : Prop :=
  ∀ entry, ¬ Entry.Spelled (Bytes.trim (uncommented line)) entry

theorem Entry.ofLine_eq_ok_iff (line : Bytes) (entry : Entry) :
    ofLine line = .ok entry ↔ Spelled (Bytes.trim (uncommented line)) entry :=
  ofText_eq_ok_iff (Bytes.tight_trim _) entry

theorem erroneous_of_error {line : Bytes} {cause : LineError}
    (h : Entry.ofLine line = .error cause) : Erroneous line := by
  intro entry hentry
  rw [← Entry.ofLine_eq_ok_iff, h] at hentry
  cases hentry

theorem not_erroneous_of_ok {line : Bytes} {entry : Entry} (h : Entry.ofLine line = .ok entry) :
    ¬ Erroneous line := by
  intro herroneous
  exact herroneous entry ((Entry.ofLine_eq_ok_iff line entry).mp h)

theorem sound_of_mem_soundLines {lines : List Bytes} {line : Bytes} (h : line ∈ soundLines lines) :
    ¬ Erroneous line := by
  rw [soundLines] at h
  have herror := List.mem_takeWhile_imp h
  rw [Entry.error?] at herror
  cases hline : Entry.ofLine line with
  | ok entry => exact not_erroneous_of_ok hline
  | error e =>
      rw [hline] at herror
      cases herror

/-- The first error is that of the line behind the sound ones. -/
theorem firstError?_cases (lines : List Bytes) (number : Nat) :
    let error := (lines.zipIdx number).findSome? fun e => (Entry.error? e.1).map (e.2, ·)
    soundLines lines = lines ∧ error = none ∨
      ∃ line behind cause, lines = soundLines lines ++ line :: behind ∧
        Entry.ofLine line = .error cause ∧
        error = some (number + (soundLines lines).length, cause) := by
  induction lines generalizing number with
  | nil => exact .inl ⟨rfl, rfl⟩
  | cons first rest ih =>
      rw [List.zipIdx_cons, List.findSome?_cons, soundLines, List.takeWhile_cons]
      cases hfirst : Entry.ofLine first with
      | error e =>
          have herror : Entry.error? first = some e := by rw [Entry.error?, hfirst]
          rw [herror]
          exact .inr ⟨first, rest, e, rfl, hfirst, rfl⟩
      | ok entry =>
          have herror : Entry.error? first = none := by rw [Entry.error?, hfirst]
          rw [herror]
          rcases ih (number + 1) with ⟨hall, hnone⟩ | ⟨line, behind, cause, hlines, hline, hsome⟩
          · exact .inl ⟨congrArg (first :: ·) hall, hnone⟩
          · refine .inr ⟨line, behind, cause, congrArg (first :: ·) hlines, hline, ?_⟩
            refine hsome.trans ?_
            rw [Nat.add_assoc, Nat.add_comm 1]
            rfl

namespace Document

/-- An empty last line changes nothing. -/
theorem readFrom_concat_nil (number : Nat) (header : Bytes) (d : Document) (lines : List Bytes) :
    readFrom number header d (lines ++ [[]]) = readFrom number header d lines := by
  induction lines generalizing number header d with
  | nil => rfl
  | cons line rest ih =>
      rw [List.cons_append, readFrom, readFrom]
      simp only [ih]

theorem read_eq_readFrom (text : Bytes) : read text = readFrom 1 [] {} (text.splitOn Byte.lf) := by
  rw [read, ← Newline.lfLines_eq]
  rcases Newline.splitOn_lf text with h | h
  · rw [h]
  · rw [h, readFrom_concat_nil]

/-- What it means to have read a named file of these lines, of which those in front come before the
first erroneous one. -/
structure CutOff (name : Bytes) (lines front : List Bytes) (old : List Bytes)
    (r : Document × List Bytes) : Prop where
  sound : ∀ line ∈ front, ¬ Erroneous line
  /-- All lines are in front, or the next one is erroneous and gives the error. -/
  outcome : front = lines ∧ r.1.errorMessage? name = none ∨
    ∃ line behind cause, lines = front ++ line :: behind ∧ Erroneous line ∧
      Entry.ofLine line = .error cause ∧
      r.1.errorMessage? name = some (position name (front.length + 1) ++ cause.message)
  distinct : (r.1.values.map (·.1)).Nodup
  value : ∀ key, r.1.values.get? key = lastAssigned front key
  warnings : r.2 = old ++ (reassignments front).map fun again =>
    position name again.1 ++ utf8 "duplicate key " ++ again.2.quoted ++ utf8 ", overriding"

/-- There is no error exactly if no line is erroneous. -/
theorem CutOff.errorMessage?_eq_none_iff {name : Bytes} {lines front old : List Bytes}
    {r : Document × List Bytes} (h : CutOff name lines front old r) :
    r.1.errorMessage? name = none ↔ ∀ line ∈ lines, ¬ Erroneous line := by
  rcases h.outcome with ⟨hall, hnone⟩ | ⟨line, behind, cause, hlines, hline, _, herror⟩
  · exact iff_of_true hnone (hall ▸ h.sound)
  · refine iff_of_false (by simp [herror]) ?_
    intro hsound
    exact hsound line (by simp [hlines]) hline

theorem cutOff_readNamed (name text : Bytes) (old : List Bytes) :
    CutOff name (text.splitOn Byte.lf) (soundLines (text.splitOn Byte.lf)) old
      (readNamed name text old) := by
  have hread := read_eq_readFrom text
  generalize text.splitOn Byte.lf = lines at hread
  have hfollows : (read text).Follows (soundLines lines) := by
    rw [hread]
    exact readFrom_follows follows_nil rfl rfl lines
  have herror := error_readFrom 1 [] (d := {}) rfl lines
  rw [← hread] at herror
  refine ⟨fun _ => sound_of_mem_soundLines, ?_, hfollows.sorted.nodup_keys, hfollows.value, ?_⟩
  · rcases firstError?_cases lines 1 with ⟨hall, hnone⟩ | ⟨line, behind, cause, hlines, hline, hsome⟩
    · refine .inl ⟨hall, ?_⟩
      rw [readNamed, errorMessage?, herror, hnone]
      rfl
    · refine .inr ⟨line, behind, cause, hlines, erroneous_of_error hline, hline, ?_⟩
      rw [readNamed, errorMessage?, herror, hsome, Nat.add_comm 1]
      rfl
  · rw [readNamed, Document.warnings, hfollows.repeated]

/-- A file is read up to its first erroneous line. Up to there the last assignment of a key holds and
each further one is warned of, and there is no error exactly if the whole file was read. -/
theorem readNamed_last_wins (name text : Bytes) (old : List Bytes) :
    let lines := text.splitOn Byte.lf
    let r := readNamed name text old
    (∀ line entry, Entry.ofLine line = .ok entry ↔
      Entry.Spelled (Bytes.trim (uncommented line)) entry) ∧
    (r.1.errorMessage? name = none ↔ ∀ line ∈ lines, ¬ Erroneous line) ∧
    ∃ front, CutOff name lines front old r := by
  intro lines r
  have hcut := cutOff_readNamed name text old
  exact ⟨Entry.ofLine_eq_ok_iff, hcut.errorMessage?_eq_none_iff, _, hcut⟩

end Document
end Linewise.Settings
