import Linewise.Proofs.Listing.Executed
import Linewise.Proofs.Listing.Reading
/-!
Writing a listing and reading it back. The text keeps the instructions before the first halt and the
optimized flag, and puts one halt at the end; everything that a listing can do survives this.
-/
namespace Linewise

namespace Reader

variable {r : Reader} (file : UInt32) {l : Line}

theorem step_header (h : l.text = Listing.header) : ({} : Reader).step file l = {} := by
  have hline : LineReading.ofLine Listing.header = .comment Listing.header := by decide
  unfold step
  rw [h, hline]
  rfl

theorem step_marker (h : l.text = Listing.marker) :
    ({} : Reader).step file l = { optimized := true } := by
  have hline : LineReading.ofLine Listing.marker = .comment Listing.marker := by decide
  unfold step
  rw [h, hline]
  rfl

theorem step_write_optimized {op : Op} (h : l.text = op.write) :
    (r.step file l).optimized = r.optimized := by
  unfold step
  rw [h, LineReading.ofLine_write]
  simp only
  split
  · unfold afterHalt
    split
    · rfl
    · rfl
  · rfl

/-- Only comments can declare a listing optimized. -/
theorem foldl_write_optimized {ls : List Line} {ops : List Op}
    (h : ls.map (·.text) = ops.map Op.write) :
    (ls.foldl (Reader.step file) r).optimized = r.optimized := by
  induction ops generalizing ls r with
  | nil =>
      rw [List.map_nil, List.map_eq_nil_iff] at h
      rw [h]
      rfl
  | cons op ops ih =>
      obtain ⟨l, ls, rfl, hl, hls⟩ := List.map_eq_cons_iff.mp h
      rw [List.foldl_cons, ih hls, step_write_optimized file hl]

end Reader

namespace Listing

def heading (l : Listing) : List Bytes := header :: if l.optimized then [marker] else []

/-- The operations that the text of a listing has. -/
def writtenOps (l : Listing) : List Op := l.live.map (·.op) ++ [.halt]

/-- The listing without what its text does not keep: source lines, statistics and the instructions
from the first halt on, in whose place there is one halt. -/
def normal (l : Listing) : Listing :=
  { instrs := l.writtenOps.map (⟨·, 0⟩), optimized := l.optimized }

theorem write_eq (l : Listing) :
    l.write = (l.heading ++ l.writtenOps.map Op.write).flatMap (· ++ [Byte.lf]) := by
  have hend : utf8 "\n" = [Byte.lf] := by decide
  unfold write heading writtenOps
  rw [hend]
  cases l.optimized with
  | false => simp [List.flatMap_append, List.flatMap_map]
  | true => simp [List.flatMap_append, List.flatMap_map]

theorem op_ne_halt_of_mem_live {l : Listing} {i : Instr} (h : i ∈ l.live) : i.op ≠ .halt := by
  have hi := List.mem_takeWhile_imp h
  simpa using hi

theorem live_of_halt {l : Listing} {front after : List Instr} {i : Instr}
    (hl : l.instrs = front ++ i :: after) (hi : i.op = .halt) (h : ∀ j ∈ front, j.op ≠ .halt) :
    l.live = front := by
  have hfront : ∀ j ∈ front, (j.op != .halt) = true := fun j hj => by simpa using h j hj
  rw [live, hl, List.takeWhile_append_of_pos hfront, List.takeWhile_cons_of_neg (by simp [hi]),
    List.append_nil]

theorem spelled_of_mem_heading {l : Listing} {line : Bytes} (h : line ∈ l.heading) :
    Byte.lf ∉ line ∧ LineSpelled line none := by
  have hheader : Byte.lf ∉ header ∧ LineSpelled header none :=
    ⟨by decide, .idle (.comment blanks_nil)⟩
  have hmarker : Byte.lf ∉ marker ∧ LineSpelled marker none :=
    ⟨by decide, .idle (.comment blanks_nil)⟩
  unfold heading at h
  cases hl : l.optimized with
  | false =>
      obtain rfl : line = header := by simpa [hl] using h
      exact hheader
  | true =>
      obtain rfl | rfl : line = header ∨ line = marker := by simpa [hl] using h
      · exact hheader
      · exact hmarker

theorem lf_not_mem_of_mem_lines (l : Listing) :
    ∀ line ∈ l.heading ++ l.writtenOps.map Op.write, Byte.lf ∉ line := by
  intro line hline
  rcases List.mem_append.mp hline with h | h
  · exact (spelled_of_mem_heading h).1
  · obtain ⟨op, _, rfl⟩ := List.mem_map.mp h
    exact op.lf_not_mem_write

theorem spelled_write (l : Listing) :
    ∃ os, List.Forall₂ LineSpelled (l.write.splitOn Byte.lf) os ∧ HaltLast os ∧
      os.reduceOption = l.writtenOps := by
  rw [write_eq, Newline.splitOn_flatMap l.lf_not_mem_of_mem_lines]
  refine ⟨l.heading.map (fun _ => none) ++ l.writtenOps.map some ++ [none], ?_, ?_, ?_⟩
  · refine List.rel_append (List.rel_append ?_ ?_) (.cons (.idle (.blanks (by decide))) .nil)
    · rw [List.forall₂_map_right_iff, List.forall₂_same]
      exact fun line hline => (spelled_of_mem_heading hline).2
    · rw [List.forall₂_map_left_iff, List.forall₂_map_right_iff, List.forall₂_same]
      exact fun op _ => lineSpelled_write op
  · have hfront : some Op.halt ∉ l.heading.map (fun _ => none) ++ (l.live.map (·.op)).map some := by
      simpa using fun i => op_ne_halt_of_mem_live (l := l) (i := i)
    have h : HaltLast (_ ++ some .halt :: [none]) := haltLast_append hfront (by simp)
    simpa [writtenOps] using h
  · simp [List.reduceOption]

theorem optimized_of_write (l : Listing) (file : UInt32) :
    ((Newline.lf.split l.write).foldl (Reader.step file) {}).optimized = l.optimized := by
  have hlines : (Newline.lf.split l.write).map (·.text) =
      l.heading ++ l.writtenOps.map Op.write := by
    rw [write_eq]
    exact Newline.lfLines_flatMap l.lf_not_mem_of_mem_lines
  unfold heading at hlines
  cases hl : l.optimized with
  | false =>
      simp only [hl] at hlines
      obtain ⟨first, ls, hls, hfirst, hops⟩ := List.map_eq_cons_iff.mp hlines
      rw [hls, List.foldl_cons, Reader.step_header file hfirst,
        Reader.foldl_write_optimized file hops]
  | true =>
      simp only [hl] at hlines
      obtain ⟨first, _, hls, hfirst, hrest⟩ := List.map_eq_cons_iff.mp hlines
      obtain ⟨second, ls, rfl, hsecond, hops⟩ := List.map_eq_cons_iff.mp hrest
      rw [hls, List.foldl_cons, Reader.step_header file hfirst, List.foldl_cons,
        Reader.step_marker file hsecond, Reader.foldl_write_optimized file hops]

theorem read_write (l : Listing) (file : UInt32) (bag : Option Bag) :
    Listing.read l.write file bag = (some l.normal, bag) := by
  obtain ⟨os, hlines, hhalt, hops⟩ := l.spelled_write
  rw [read_of_spelled hlines hhalt, hops, optimized_of_write]
  rfl

theorem instrs_normal (l : Listing) :
    l.normal.instrs = (l.live.map fun i => ⟨i.op, 0⟩) ++ [⟨.halt, 0⟩] := by
  simp [normal, writtenOps]

theorem live_normal (l : Listing) : l.normal.live = l.live.map fun i => ⟨i.op, 0⟩ := by
  refine live_of_halt l.instrs_normal rfl fun i hi heq => ?_
  obtain ⟨j, hj, rfl⟩ := List.mem_map.mp hi
  exact op_ne_halt_of_mem_live hj heq

theorem write_normal (l : Listing) : l.normal.write = l.write := by
  have hops : l.normal.writtenOps = l.writtenOps := by
    rw [writtenOps, live_normal, List.map_map]
    rfl
  rw [write_eq, write_eq, hops]
  rfl

theorem execute_normal (l : Listing) : l.normal.execute = l.execute := by
  have hrun : executeFrom {} [] l.normal.instrs = executeFrom {} [] l.instrs := by
    have hhalt : (⟨.halt, 0⟩ : Instr).op = .halt := rfl
    rw [← executeFrom_takeWhile hhalt l.instrs]
    apply executeFrom_congr
    simp [normal, writtenOps, live]
  rw [execute, execute, hrun]

/-- A listing that was read from some text is normal already. -/
theorem normal_of_read {text : Bytes} {file : UInt32} {bag : Option Bag} {l : Listing}
    (h : (Listing.read text file bag).1 = some l) : l.normal = l := by
  obtain ⟨_, hzero, front, hlast, hfree⟩ := instrs_of_read h
  have hops : l.writtenOps = l.instrs.map (·.op) := by
    rw [writtenOps, live_of_halt hlast rfl hfree, hlast, List.map_append]
    rfl
  rw [normal, hops, ← hzero, ← stats_of_read h]

/-- Writing a listing and reading it back loses only what the text does not keep, which changes
neither what the listing prints nor its text, and nothing at all of a listing that was read. -/
theorem write_round_trip (l : Listing) (file : UInt32) (bag : Option Bag) :
    Listing.read l.write file bag = (some l.normal, bag) ∧
      l.normal.execute = l.execute ∧ l.normal.write = l.write ∧
      ∀ text file' bag' m, (Listing.read text file' bag').1 = some m →
        Listing.read m.write file bag = (some m, bag) := by
  refine ⟨l.read_write file bag, l.execute_normal, l.write_normal, ?_⟩
  intro text file' bag' m hm
  rw [m.read_write file bag, normal_of_read hm]

theorem write_round_trip_of_two_halts :
    (Listing.read (write
        ⟨[⟨.append [0, 0x22, 0x0A], 7⟩, ⟨.halt, 0⟩, ⟨.print, 9⟩, ⟨.halt, 0⟩], true, ⟨1, 0, 2⟩⟩)
        0 none).1 = some ⟨[⟨.append [0, 0x22, 0x0A], 0⟩, ⟨.halt, 0⟩], true, {}⟩ ∧
      Listing.read (write ⟨[⟨.append [0, 0x22, 0x0A], 0⟩, ⟨.halt, 0⟩], true, {}⟩) 0 none =
        (some ⟨[⟨.append [0, 0x22, 0x0A], 0⟩, ⟨.halt, 0⟩], true, {}⟩, none) := by
  have hread : (Listing.read (write
      ⟨[⟨.append [0, 0x22, 0x0A], 7⟩, ⟨.halt, 0⟩, ⟨.print, 9⟩, ⟨.halt, 0⟩], true, ⟨1, 0, 2⟩⟩)
      0 none).1 = some ⟨[⟨.append [0, 0x22, 0x0A], 0⟩, ⟨.halt, 0⟩], true, {}⟩ := by
    rw [(write_round_trip _ 0 none).1]
    rfl
  exact ⟨hread, (write_round_trip default 0 none).2.2.2 _ 0 none _ hread⟩

end Listing
end Linewise
