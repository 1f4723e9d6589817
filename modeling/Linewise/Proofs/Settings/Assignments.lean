import Linewise.Proofs.Listing.Lines
import Linewise.Proofs.Positions
import Linewise.Proofs.Settings.Tables
import Linewise.Settings.Document
/-!
What a settings file assigns, said line by line. The lines before the first erroneous one count. An
assignment among them belongs to the section that was opened last before it, and of the assignments
of a key the last one holds. All but the first are told, with their lines.
-/
namespace Linewise.Settings

/-- The section that a line opens. -/
def Entry.header? (line : Bytes) : Option Bytes :=
  match ofLine line with
  | .ok (.header name) => some name
  | _ => none

/-- What is wrong with an erroneous line. -/
def Entry.error? (line : Bytes) : Option LineError :=
  match ofLine line with
  | .ok _ => none
  | .error e => some e

/-- The section in force behind these lines; it has no name before any is opened. -/
def sectionOf (lines : List Bytes) : Bytes := (lines.filterMap Entry.header?).getLastD []

/-- What a line assigns behind these lines, with its full key. -/
def Entry.assignment? (before : List Bytes) (line : Bytes) : Option (Bytes × Value) :=
  match ofLine line with
  | .ok (.assignment key value) => some (Document.fullKey (sectionOf before) key, value)
  | _ => none

/-- The assignments of the lines, in order. -/
def assignments (lines : List Bytes) : List (Bytes × Value) :=
  lines.zipIdx.filterMap fun e => Entry.assignment? (lines.take e.2) e.1

/-- The last value that the lines assign to a key. -/
def lastAssigned (lines : List Bytes) (key : Bytes) : Option Value :=
  ((assignments lines).filter fun a => a.1 = key).getLast?.map (·.2)

/-- The number and the key of a line behind these lines, if it assigns a key that they assign. -/
def Entry.reassigned? (before : List Bytes) (line : Bytes) : Option (Nat × Bytes) :=
  match assignment? before line with
  | some (key, _) =>
    if key ∈ (assignments before).map (·.1) then some (before.length + 1, key) else none
  | none => none

/-- The lines that assign a key once more, in order. -/
def reassignments (lines : List Bytes) : List (Nat × Bytes) :=
  lines.zipIdx.filterMap fun e => Entry.reassigned? (lines.take e.2) e.1

/-- The lines before the first erroneous one. -/
def soundLines (lines : List Bytes) : List Bytes :=
  lines.takeWhile fun line => (Entry.error? line).isNone

/-- The first erroneous line, by its number. -/
def firstError? (lines : List Bytes) : Option (Nat × LineError) :=
  (lines.zipIdx 1).findSome? fun e => (Entry.error? e.1).map (e.2, ·)

theorem sectionOf_concat (lines : List Bytes) (line : Bytes) :
    sectionOf (lines ++ [line]) = (Entry.header? line).getD (sectionOf lines) := by
  rw [sectionOf, List.filterMap_append]
  cases h : Entry.header? line with
  | none => simp [sectionOf, h]
  | some name => simp [h]

theorem assignments_concat (lines : List Bytes) (line : Bytes) :
    assignments (lines ++ [line]) = assignments lines ++ (Entry.assignment? lines line).toList :=
  filterMap_zipIdx_concat Entry.assignment? lines line

/-- One more line changes nothing, unless it assigns the key. -/
theorem lastAssigned_concat (lines : List Bytes) (line key : Bytes) :
    lastAssigned (lines ++ [line]) key =
      match Entry.assignment? lines line with
      | some (k, v) => if key = k then some v else lastAssigned lines key
      | none => lastAssigned lines key := by
  rw [lastAssigned, assignments_concat, List.filter_append, List.getLast?_append]
  cases h : Entry.assignment? lines line with
  | none => simp [lastAssigned]
  | some a =>
      obtain ⟨k, v⟩ := a
      by_cases hkey : key = k
      · simp [hkey]
      · simp [hkey, Ne.symm hkey, lastAssigned]

theorem reassignments_concat (lines : List Bytes) (line : Bytes) :
    reassignments (lines ++ [line]) =
      reassignments lines ++ (Entry.reassigned? lines line).toList :=
  filterMap_zipIdx_concat Entry.reassigned? lines line

theorem isSome_lastAssigned_iff (lines : List Bytes) (key : Bytes) :
    (lastAssigned lines key).isSome = true ↔ key ∈ (assignments lines).map (·.1) := by
  rw [lastAssigned, Option.isSome_map, List.getLast?_isSome, ne_eq, List.filter_eq_nil_iff]
  simp only [decide_eq_true_eq, not_forall, not_not, List.mem_map, exists_prop]

namespace Document

/-- The values are those that the lines assign last, and the further assignments are noted. -/
structure Follows (d : Document) (lines : List Bytes) : Prop where
  sorted : d.values.Sorted
  value : ∀ key, d.values.get? key = lastAssigned lines key
  repeated : d.repeated = reassignments lines

theorem follows_nil : Follows {} [] := ⟨.nil, fun _ => rfl, rfl⟩

section
variable {d : Document} {done : List Bytes} {line : Bytes}

/-- A key has a value if it was assigned before. -/
theorem Follows.has_iff (h : d.Follows done) (key : Bytes) :
    d.values.has key = true ↔ key ∈ (assignments done).map (·.1) := by
  rw [← isSome_lastAssigned_iff, ← h.value, Table.isSome_get?_iff, Table.has, List.any_eq_true,
    List.mem_map]
  simp only [decide_eq_true_eq]

theorem Follows.skip (h : d.Follows done) (hline : Entry.assignment? done line = none) :
    d.Follows (done ++ [line]) where
  sorted := h.sorted
  value key := by
    rw [lastAssigned_concat, hline]
    exact h.value key
  repeated := by
    rw [reassignments_concat, Entry.reassigned?, hline]
    exact h.repeated.trans (List.append_nil _).symm

theorem Follows.assign (h : d.Follows done) {key : Bytes} {value : Value}
    (hline : Entry.assignment? done line = some (key, value)) :
    let repeated :=
      if d.values.has key then d.repeated ++ [(done.length + 1, key)] else d.repeated
    Follows { d with values := d.values.put key value, repeated := repeated } (done ++ [line]) where
  sorted := h.sorted.put key value
  value other := by
    rw [lastAssigned_concat, hline, Table.get?_put, h.value]
  repeated := by
    rw [reassignments_concat, Entry.reassigned?, hline, ← h.repeated]
    simp only [h.has_iff]
    split_ifs with hkey
    · rfl
    · exact (List.append_nil _).symm

/-- The pass over further lines, in the section in force behind those before. -/
theorem readFrom_follows (h : d.Follows done) {number : Nat} (hnumber : number = done.length + 1)
    {header : Bytes} (hheader : sectionOf done = header) (rest : List Bytes) :
    (readFrom number header d rest).Follows (done ++ soundLines rest) := by
  induction rest generalizing number header d done with
  | nil => rwa [soundLines, List.takeWhile_nil, List.append_nil]
  | cons line rest ih =>
      have hnext : number + 1 = (done ++ [line]).length + 1 := by
        rw [hnumber, List.length_append]
        rfl
      have hsection := sectionOf_concat done line
      rw [readFrom, soundLines, List.takeWhile_cons]
      cases hline : Entry.ofLine line with
      | error e =>
          simp only [Entry.error?, hline, Option.isNone_some, Bool.false_eq_true, if_false,
            List.append_nil]
          exact ⟨h.sorted, h.value, h.repeated⟩
      | ok entry =>
          simp only [Entry.error?, hline, Option.isNone_none, if_true]
          rw [Entry.header?, hline, hheader] at hsection
          rw [List.append_cons]
          cases entry with
          | nothing =>
              have hskip : Entry.assignment? done line = none := by rw [Entry.assignment?, hline]
              exact ih (h.skip hskip) hnext hsection
          | header name =>
              have hskip : Entry.assignment? done line = none := by rw [Entry.assignment?, hline]
              exact ih (h.skip hskip) hnext hsection
          | assignment key value =>
              have hassign : Entry.assignment? done line = some (fullKey header key, value) := by
                rw [Entry.assignment?, hline, hheader]
              subst hnumber
              exact ih (h.assign hassign) hnext hsection

end

theorem error_readFrom (number : Nat) (header : Bytes) {d : Document} (h : d.error = none)
    (lines : List Bytes) :
    (readFrom number header d lines).error =
      (lines.zipIdx number).findSome? fun e => (Entry.error? e.1).map (e.2, ·) := by
  induction lines generalizing number header d with
  | nil => exact h
  | cons line rest ih =>
      rw [List.zipIdx_cons, List.findSome?_cons, readFrom, Entry.error?]
      cases hline : Entry.ofLine line with
      | error e => rfl
      | ok entry =>
          cases entry with
          | nothing => exact ih _ _ h
          | header name => exact ih _ _ h
          | assignment key value => exact ih _ _ h

theorem read_follows (text : Bytes) : (read text).Follows (soundLines (Newline.lfLines text)) := by
  rw [read, ← Newline.lfLines_eq]
  exact readFrom_follows follows_nil rfl rfl _

/-- The second assignment counts, and the one behind the erroneous line does not. -/
example : (read (utf8 "[diag]\ncontext = 1\ncontext = 3\noops\ncontext = 5\n")).values.get?
    (utf8 "diag.context") = some (.integer 3) := by decide +kernel

theorem error_read (text : Bytes) : (read text).error = firstError? (Newline.lfLines text) := by
  rw [read, ← Newline.lfLines_eq]
  exact error_readFrom 1 [] rfl _

end Document
end Linewise.Settings
