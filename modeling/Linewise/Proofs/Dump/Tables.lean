import Linewise.Proofs.Dump.Lines
import Mathlib.Data.List.Forall2
/-!
What a dump keeps. Every instruction and every statement has a line of its own, whatever its literal
holds. From its lines a dumped listing is known in full, and a dumped program up to the files of its
spans and the payloads that are not emitted.
-/
namespace Linewise

/-! ### Listings -/

/-- The comment about the source line of an instruction. -/
def lineRemark (line : UInt32) : Bytes :=
  if line = 0 then [] else utf8 "    ; line " ++ Decimal.ofWord line

@[simp] theorem clean_lineRemark (line : UInt32) : Clean (lineRemark line) := by
  have hfixed : Clean (utf8 "    ; line ") := by decide
  unfold lineRemark
  split_ifs with hzero
  · exact clean_nil
  · simp [hfixed]

theorem filler_lineRemark (line : UInt32) : Filler (lineRemark line) := by
  unfold lineRemark
  split_ifs with hzero
  · exact .blanks blanks_nil
  · have hblanks : Blanks (utf8 "    ") := by decide
    have hremark : utf8 "    ; line " = utf8 "    " ++ Byte.semicolon :: utf8 " line " := by decide
    rw [hremark, List.append_assoc]
    exact .comment hblanks

theorem lineRemark_injective : Function.Injective lineRemark := by
  intro v w h
  unfold lineRemark at h
  split_ifs at h with hv hw hw
  · rw [hv, hw]
  · exact absurd h.symm (List.append_ne_nil_of_left_ne_nil (by decide) _)
  · exact absurd h (List.append_ne_nil_of_left_ne_nil (by decide) _)
  · exact UInt32.toNat_inj.mp (Decimal.ofNat_injective (List.append_cancel_left h))

namespace Instr

/-- The line for an instruction. -/
def row (i : Instr) (index : Nat) : Bytes :=
  utf8 "    #" ++ (Decimal.ofNat index ++ (utf8 " " ++ (i.op.write ++ lineRemark i.line)))

theorem dump_eq (i : Instr) (index : Nat) : i.dump index = i.row index ++ [Byte.lf] := by
  have hlf : utf8 "\n" = [Byte.lf] := by decide
  obtain ⟨op, line⟩ := i
  cases op with
  | append text | printLiteral text | print | halt =>
    simp only [dump, row, Op.write, Op.literal?, lineRemark, hlf, List.append_assoc,
      List.append_nil]

theorem clean_row (i : Instr) (index : Nat) : Clean (i.row index) := by
  have hfixed : Clean (utf8 "    #") ∧ Clean (utf8 " ") := by decide
  simp [row, hfixed]

-- Behind its number the line is a line of a listing's text, so reading it gives the instruction.
theorem row_injective (index : Nat) : Function.Injective fun i : Instr => i.row index := by
  rintro ⟨op, line⟩ ⟨op', line'⟩ h
  have hline : op.write ++ lineRemark line = op'.write ++ lineRemark line' :=
    List.append_cancel_left (List.append_cancel_left (List.append_cancel_left h))
  obtain ⟨rfl, hremark⟩ := Op.write_append_inj (filler_lineRemark line) (filler_lineRemark line')
    (clean_lineRemark line).lf_not_mem (clean_lineRemark line').lf_not_mem hline
  rw [lineRemark_injective hremark]

-- A literal that spells a remark stays inside its quotes.
example : (⟨.append (utf8 "a\"    ; line 3"), 0⟩ : Instr).dump 0 =
    utf8 "    #0 append \"a\\\"    ; line 3\"\n" := by decide

end Instr

/-- Entries that are told apart at each position are told apart as a list. -/
theorem map_zipIdx_inj {α β : Type} {f : α → Nat → β} (hf : ∀ k, Function.Injective (f · k))
    {as bs : List α}
    (h : as.zipIdx.map (fun e => f e.1 e.2) = bs.zipIdx.map fun e => f e.1 e.2) : as = bs := by
  refine List.ext_getElem? fun k => ?_
  have hk := congrArg (·[k]?) h
  simp only [List.getElem?_map, List.getElem?_zipIdx, Option.map_map, Nat.zero_add] at hk
  exact Option.map_injective (hf k) hk

/-- The line for the statistics. -/
def Stats.row (s : Stats) : Bytes :=
  utf8 "  opt_stats:" ++ fields
    [("emits_folded", Decimal.ofWord s.emitsFolded),
      ("dead_emits_eliminated", Decimal.ofWord s.deadEmits),
      ("comments_skipped", Decimal.ofWord s.comments)]

theorem Stats.clean_row (s : Stats) : Clean s.row := by
  have hfixed : Clean (utf8 "  opt_stats:") ∧ Clean (utf8 "emits_folded") ∧
      Clean (utf8 "dead_emits_eliminated") ∧ Clean (utf8 "comments_skipped") := by decide
  refine (clean_append _ _).mpr ⟨hfixed.1, clean_fields ?_⟩
  simp [hfixed]

theorem Stats.row_injective : Function.Injective Stats.row := by
  rintro ⟨folded, dead, comments⟩ ⟨folded', dead', comments'⟩ h
  obtain ⟨rfl, h⟩ := fields_cons_inj (List.append_cancel_left h)
  obtain ⟨rfl, h⟩ := fields_cons_inj h
  obtain ⟨rfl, -⟩ := fields_cons_inj h
  rfl

namespace Listing

/-- The line for what is counted and for the flag. -/
def countsRow (l : Listing) : Bytes :=
  utf8 " " ++ fields
    [("insts", Decimal.ofNat l.instrs.length), ("prints", Decimal.ofWord l.prints),
      ("optimized", if l.optimized then utf8 "true" else utf8 "false")]

theorem clean_countsRow (l : Listing) : Clean l.countsRow := by
  have hfixed : Clean (utf8 " ") ∧ Clean (utf8 "insts") ∧ Clean (utf8 "prints") ∧
      Clean (utf8 "optimized") := by decide
  have hflag : Clean (if l.optimized then utf8 "true" else utf8 "false") := by
    cases l.optimized <;> decide
  refine (clean_append _ _).mpr ⟨hfixed.1, clean_fields ?_⟩
  simp [hfixed, hflag]

/-- Once the instructions are known, the line tells the flag. -/
theorem optimized_of_countsRow {l m : Listing} (hinstrs : l.instrs = m.instrs)
    (h : l.countsRow = m.countsRow) : l.optimized = m.optimized := by
  rw [countsRow, countsRow, prints, prints, hinstrs] at h
  simp only [fields, field, List.flatMap_cons, List.append_cancel_left_eq,
    List.append_cancel_right_eq] at h
  revert h
  cases l.optimized <;> cases m.optimized <;> decide

def dumpHeading (l : Listing) : List Bytes := [[], utf8 "QIR:", l.countsRow, l.stats.row]

theorem length_dumpHeading (l : Listing) : l.dumpHeading.length = 4 := rfl

def dumpRows (l : Listing) : List Bytes := l.instrs.zipIdx.map fun e => e.1.row e.2

theorem dump_eq (l : Listing) :
    l.dump = (l.dumpHeading ++ l.dumpRows).flatMap (· ++ [Byte.lf]) := by
  have htitle : utf8 "\nQIR:\n" = [Byte.lf] ++ utf8 "QIR:" ++ [Byte.lf] := by decide
  have hindent : utf8 "  " = utf8 " " ++ utf8 " " := by decide
  have hstats : utf8 "\n  opt_stats: " = [Byte.lf] ++ utf8 "  opt_stats:" ++ utf8 " " := by decide
  have hlf : utf8 "\n" = [Byte.lf] := by decide
  have hrows : l.instrs.zipIdx.flatMap (fun i => i.1.dump i.2) =
      l.dumpRows.flatMap (· ++ [Byte.lf]) := by
    rw [dumpRows, List.flatMap_map]
    simp only [Instr.dump_eq]
  simp only [dump, hrows, dumpHeading, countsRow, Stats.row, fields, htitle, hindent, hstats, hlf,
    List.flatMap_append, List.flatMap_cons, List.flatMap_nil, List.append_assoc, List.nil_append,
    List.append_nil]

theorem clean_dumpLines (l : Listing) : ∀ line ∈ l.dumpHeading ++ l.dumpRows, Clean line := by
  have htitle : Clean (utf8 "QIR:") := by decide
  rw [List.forall_mem_append]
  constructor
  · simp [dumpHeading, htitle, l.clean_countsRow, l.stats.clean_row]
  · intro line hline
    obtain ⟨e, _, rfl⟩ := List.mem_map.mp hline
    exact e.1.clean_row e.2

theorem lineByLine_dump (l : Listing) :
    LineByLine l.dump 4 (l.instrs.zipIdx.map fun e => e.1.dump e.2) := by
  have hentries :
      (l.instrs.zipIdx.map fun e => e.1.dump e.2) = l.dumpRows.map (· ++ [Byte.lf]) := by
    simp only [dumpRows, List.map_map, Function.comp_def, Instr.dump_eq]
  rw [hentries, dump_eq, ← length_dumpHeading l]
  exact lineByLine_of_clean rfl l.clean_dumpLines

theorem dump_injective : Function.Injective dump := by
  intro l m h
  rw [dump_eq, dump_eq] at h
  have hlength : l.dumpHeading.length = m.dumpHeading.length := by
    rw [length_dumpHeading, length_dumpHeading]
  obtain ⟨hheading, hrows⟩ := parts_inj_of_clean hlength l.clean_dumpLines m.clean_dumpLines h
  simp only [dumpHeading, List.cons.injEq, true_and, and_true] at hheading
  have hinstrs : l.instrs = m.instrs := map_zipIdx_inj Instr.row_injective hrows
  have hoptimized := optimized_of_countsRow hinstrs hheading.1
  have hstats := Stats.row_injective hheading.2
  cases l
  cases m
  congr

end Listing

/-! ### Programs -/

/-- The kinds have different initials. -/
theorem Kind.name_append_inj {k k' : Kind} {s t : Bytes} (h : k.name ++ s = k'.name ++ t) :
    k = k' ∧ s = t := by
  have hne (k : Kind) : k.name ≠ [] := by cases k <;> decide
  have hinitial : k.name.head? = k'.name.head? := by
    rw [← List.head?_append_of_ne_nil _ (hne k), h, List.head?_append_of_ne_nil _ (hne k')]
  have hkind : k = k' := by
    revert hinitial
    cases k <;> cases k' <;> decide
  subst hkind
  exact ⟨rfl, List.append_cancel_left h⟩

namespace Statement

/-- The statements differ at most in the file and in a payload that is not emitted. -/
structure ShownLike (s t : Statement) : Prop where
  kind : s.kind = t.kind
  line : s.line = t.line
  lo : s.span.lo = t.span.lo
  hi : s.span.hi = t.span.hi
  payload : s.kind = .emit → s.payload = t.payload

/-- The payload of an emit as its line shows it. -/
def shownPayload (s : Statement) : Bytes :=
  if s.kind = .emit then utf8 " " ++ Literal.write s.payload else []

/-- The line for a statement. -/
def row (s : Statement) : Bytes :=
  utf8 "  L" ++ (Decimal.ofWord s.line ++ (utf8 " " ++ (s.kind.name ++ (s.shownPayload ++
    (utf8 "  [" ++ (Decimal.ofWord s.span.lo ++ (utf8 ", " ++ (Decimal.ofWord s.span.hi ++
      utf8 ")"))))))))

theorem dump_eq (s : Statement) : s.dump = s.row ++ [Byte.lf] := by
  have hend : utf8 ")\n" = utf8 ")" ++ [Byte.lf] := by decide
  simp only [dump, row, shownPayload, hend, List.append_assoc]

theorem clean_row (s : Statement) : Clean s.row := by
  have hfixed : Clean (utf8 "  L") ∧ Clean (utf8 " ") ∧ Clean (utf8 "  [") ∧ Clean (utf8 ", ") ∧
      Clean (utf8 ")") := by decide
  have hpayload : Clean s.shownPayload := by
    unfold shownPayload
    split_ifs with hemit
    · simp [hfixed]
    · exact clean_nil
  simp [row, hfixed, hpayload]

theorem shownPayload_append_inj {s t : Statement} (hkind : s.kind = t.kind) {a b : Bytes}
    (h : s.shownPayload ++ a = t.shownPayload ++ b) :
    (s.kind = .emit → s.payload = t.payload) ∧ a = b := by
  rw [shownPayload, shownPayload, ← hkind] at h
  split_ifs at h with hemit
  · simp only [List.append_assoc] at h
    obtain ⟨hpayload, hrest⟩ := Literal.write_append_inj (List.append_cancel_left h)
    exact ⟨fun _ => hpayload, hrest⟩
  · exact ⟨fun h => absurd h hemit, h⟩

theorem ShownLike.row_eq {s t : Statement} (h : s.ShownLike t) : s.row = t.row := by
  have hshown : s.shownPayload = t.shownPayload := by
    rw [shownPayload, shownPayload, ← h.kind]
    split_ifs with hemit
    · rw [h.payload hemit]
    · rfl
  rw [row, row, h.line, h.kind, hshown, h.lo, h.hi]

theorem row_eq_iff (s t : Statement) : s.row = t.row ↔ s.ShownLike t := by
  refine ⟨fun h => ?_, ShownLike.row_eq⟩
  obtain ⟨hline, h⟩ := Decimal.ofWord_append_inj rfl rfl (List.append_cancel_left h)
  obtain ⟨hkind, h⟩ := Kind.name_append_inj (List.append_cancel_left h)
  obtain ⟨hpayload, h⟩ := shownPayload_append_inj hkind h
  obtain ⟨hlo, h⟩ := Decimal.ofWord_append_inj rfl rfl (List.append_cancel_left h)
  obtain ⟨hhi, -⟩ := Decimal.ofWord_append_inj rfl rfl (List.append_cancel_left h)
  exact ⟨hkind, hline, hlo, hhi, hpayload⟩

end Statement

namespace Program

/-- The line for the number of statements, in all and of each kind. -/
def countsRow (p : Program) : Bytes :=
  utf8 " " ++ fields
    [("total", Decimal.ofNat p.length), ("emit", Decimal.ofWord (p.count .emit)),
      ("print", Decimal.ofWord (p.count .print)), ("comment", Decimal.ofWord (p.count .comment)),
      ("invalid", Decimal.ofWord (p.count .invalid))]

theorem clean_countsRow (p : Program) : Clean p.countsRow := by
  have hfixed : Clean (utf8 " ") ∧ Clean (utf8 "total") ∧ Clean (utf8 "emit") ∧
      Clean (utf8 "print") ∧ Clean (utf8 "comment") ∧ Clean (utf8 "invalid") := by decide
  refine (clean_append _ _).mpr ⟨hfixed.1, clean_fields ?_⟩
  simp [hfixed]

/-- What is counted does not depend on what is not shown. -/
theorem countsRow_congr {p q : Program} (h : List.Forall₂ Statement.ShownLike p q) :
    p.countsRow = q.countsRow := by
  have hcount (k : Kind) : p.count k = q.count k := by
    have hkinds : p.countP (·.kind = k) = q.countP (·.kind = k) := by
      induction h with
      | nil => rfl
      | cons hs _ ih => rw [List.countP_cons, List.countP_cons, ih, hs.kind]
    rw [count, count, hkinds]
  simp only [countsRow, h.length_eq, hcount]

def dumpHeading (p : Program) : List Bytes := [[], utf8 "STMTS:", p.countsRow]

theorem length_dumpHeading (p : Program) : p.dumpHeading.length = 3 := rfl

def dumpRows (p : Program) : List Bytes := p.map Statement.row

theorem dump_eq (p : Program) :
    p.dump = (p.dumpHeading ++ p.dumpRows).flatMap (· ++ [Byte.lf]) := by
  have htitle : utf8 "\nSTMTS:\n" = [Byte.lf] ++ utf8 "STMTS:" ++ [Byte.lf] := by decide
  have hindent : utf8 "  " = utf8 " " ++ utf8 " " := by decide
  have hlf : utf8 "\n" = [Byte.lf] := by decide
  have hrows : p.flatMap Statement.dump = p.dumpRows.flatMap (· ++ [Byte.lf]) := by
    rw [dumpRows, List.flatMap_map, funext Statement.dump_eq]
  simp only [dump, hrows, dumpHeading, countsRow, fields, htitle, hindent, hlf,
    List.flatMap_append, List.flatMap_cons, List.flatMap_nil, List.append_assoc, List.nil_append,
    List.append_nil]

theorem clean_dumpLines (p : Program) : ∀ line ∈ p.dumpHeading ++ p.dumpRows, Clean line := by
  have htitle : Clean (utf8 "STMTS:") := by decide
  rw [List.forall_mem_append]
  constructor
  · simp [dumpHeading, htitle, p.clean_countsRow]
  · intro line hline
    obtain ⟨s, _, rfl⟩ := List.mem_map.mp hline
    exact s.clean_row

theorem lineByLine_dump (p : Program) : LineByLine p.dump 3 (p.map Statement.dump) := by
  have hentries : p.map Statement.dump = p.dumpRows.map (· ++ [Byte.lf]) := by
    rw [dumpRows, List.map_map, funext Statement.dump_eq]
    rfl
  rw [hentries, dump_eq, ← length_dumpHeading p]
  exact lineByLine_of_clean rfl p.clean_dumpLines

theorem dumpRows_eq_iff (p q : Program) :
    p.dumpRows = q.dumpRows ↔ List.Forall₂ Statement.ShownLike p q := by
  rw [dumpRows, dumpRows, ← List.forall₂_eq_eq_eq, List.forall₂_map_left_iff,
    List.forall₂_map_right_iff]
  simp only [Statement.row_eq_iff]

theorem dump_eq_iff (p q : Program) : p.dump = q.dump ↔ List.Forall₂ Statement.ShownLike p q := by
  rw [dump_eq, dump_eq]
  constructor
  · intro h
    have hlength : p.dumpHeading.length = q.dumpHeading.length := by
      rw [length_dumpHeading, length_dumpHeading]
    have hparts := parts_inj_of_clean hlength p.clean_dumpLines q.clean_dumpLines h
    exact (dumpRows_eq_iff p q).mp hparts.2
  · intro h
    rw [dumpHeading, dumpHeading, countsRow_congr h, (dumpRows_eq_iff p q).mpr h]

end Program

/-- A dump has one line for each instruction or statement, below four heading lines or three, and no
literal breaks a line. Listings with the same dump are the same, and programs have the same dump
exactly if each statement is shown like its counterpart. -/
theorem dumps_line_safe_and_lossless :
    (∀ l : Listing, LineByLine l.dump 4 (l.instrs.zipIdx.map fun e => e.1.dump e.2)) ∧
      (∀ p : Program, LineByLine p.dump 3 (p.map Statement.dump)) ∧
      (∀ l m : Listing, l.dump = m.dump ↔ l = m) ∧
      ∀ p q : Program, p.dump = q.dump ↔ List.Forall₂ Statement.ShownLike p q :=
  ⟨Listing.lineByLine_dump, Program.lineByLine_dump, fun _ _ => Listing.dump_injective.eq_iff,
    Program.dump_eq_iff⟩

end Linewise
