import Linewise.Proofs.Assembly.Lines
/-!
A lowered text is put together from segments of whole lines. What a segment defines and calls does
not depend on what stands around it, so the reading of the text follows from the readings of its
segments on both sides of the opening line of the main function.
-/
namespace Linewise

/-- Lines other than `stop` that define these constants and spell these calls. -/
def Segment (stop text : Bytes) (constants : List Constant) (calls : List NamedCall) : Prop :=
  ∃ lines : List Bytes, text = lines.flatMap (· ++ [Byte.lf]) ∧
    (∀ line ∈ lines, Byte.lf ∉ line ∧ line ≠ stop) ∧
    lines.filterMap Constant.ofLine? = constants ∧ lines.filterMap NamedCall.ofLine? = calls

/-- A line other than `stop` that neither defines a constant nor spells a call. -/
def Silent (stop line : Bytes) : Prop :=
  Byte.lf ∉ line ∧ line ≠ stop ∧ Constant.ofLine? line = none ∧ NamedCall.ofLine? line = none

instance (stop line : Bytes) : Decidable (Silent stop line) :=
  inferInstanceAs (Decidable (_ ∧ _ ∧ _ ∧ _))

namespace Segment

variable {stop text text' : Bytes} {constants constants' : List Constant}
  {calls calls' : List NamedCall}

theorem nil : Segment stop [] [] [] := ⟨[], rfl, by simp, rfl, rfl⟩

theorem line {l : Bytes} (hlf : Byte.lf ∉ l) (hstop : l ≠ stop) :
    Segment stop (l ++ [Byte.lf]) (Constant.ofLine? l).toList (NamedCall.ofLine? l).toList := by
  refine ⟨[l], by simp, by simpa using ⟨hlf, hstop⟩, ?_, ?_⟩
  · cases h : Constant.ofLine? l with
    | none => rw [List.filterMap_cons_none h]; rfl
    | some c => rw [List.filterMap_cons_some h]; rfl
  · cases h : NamedCall.ofLine? l with
    | none => rw [List.filterMap_cons_none h]; rfl
    | some c => rw [List.filterMap_cons_some h]; rfl

theorem silent {l : Bytes} (h : Silent stop l) : Segment stop (l ++ [Byte.lf]) [] [] := by
  obtain ⟨hlf, hstop, hconstant, hcall⟩ := h
  have hline := Segment.line hlf hstop
  rw [hconstant, hcall] at hline
  exact hline

theorem append (h : Segment stop text constants calls) (h' : Segment stop text' constants' calls') :
    Segment stop (text ++ text') (constants ++ constants') (calls ++ calls') := by
  obtain ⟨lines, rfl, hlines, rfl, rfl⟩ := h
  obtain ⟨lines', rfl, hlines', rfl, rfl⟩ := h'
  refine ⟨lines ++ lines', by simp, ?_, by simp, by simp⟩
  intro l hl
  exact (List.mem_append.mp hl).elim (hlines l) (hlines' l)

theorem followed (h : Segment stop text constants calls) (h' : Segment stop text' [] []) :
    Segment stop (text ++ text') constants calls := by
  have happend := h.append h'
  rw [List.append_nil, List.append_nil] at happend
  exact happend

theorem flatMap {α : Type} (xs : List α) {write : α → Bytes} {constants : α → List Constant}
    {calls : α → List NamedCall} (h : ∀ x ∈ xs, Segment stop (write x) (constants x) (calls x)) :
    Segment stop (xs.flatMap write) (xs.flatMap constants) (xs.flatMap calls) := by
  induction xs with
  | nil => exact nil
  | cons x xs ih =>
      rw [List.forall_mem_cons] at h
      exact h.1.append (ih h.2)

theorem rows {rs : List String} (h : ∀ r ∈ rs, Silent stop (utf8 r)) :
    Segment stop (Bytes.ofRows rs) [] [] := by
  induction rs with
  | nil => exact nil
  | cons r rs ih =>
      rw [List.forall_mem_cons] at h
      exact (silent h.1).append (ih h.2)

/-- A segment that says nothing may as well be left out. -/
theorem when (condition : Bool) (h : Segment stop text [] []) :
    Segment stop (Bytes.when condition text) [] [] := by
  cases condition with
  | false => exact nil
  | true => exact h

end Segment

namespace AssemblyReading

/-- The constants of a text stand before the main function and its calls in it. -/
theorem ofText_of_segments {before body : Bytes} {constants : List Constant}
    {calls calls' : List NamedCall} (hbefore : Segment mainLine before constants calls')
    (hbody : Segment closingLine body [] calls) :
    ofText (before ++ (mainLine ++ [Byte.lf]) ++ (body ++ (closingLine ++ [Byte.lf]))) =
      ⟨constants, calls⟩ := by
  obtain ⟨lines, rfl, hlines, hconstants, -⟩ := hbefore
  obtain ⟨lines', rfl, hlines', hnone, hcalls⟩ := hbody
  have hmain : Byte.lf ∉ mainLine ∧ Constant.ofLine? mainLine = none := by decide
  have hclosing : Byte.lf ∉ closingLine ∧ Constant.ofLine? closingLine = none ∧
      Constant.ofLine? [] = none := by decide
  let all := lines ++ mainLine :: (lines' ++ [closingLine])
  have hlf : ∀ line ∈ all, Byte.lf ∉ line := by
    intro line hline
    simp only [all, List.mem_append, List.mem_cons, List.not_mem_nil, or_false] at hline
    rcases hline with h | rfl | h | rfl
    · exact (hlines line h).1
    · exact hmain.1
    · exact (hlines' line h).1
    · exact hclosing.1
  have htext : lines.flatMap (· ++ [Byte.lf]) ++ (mainLine ++ [Byte.lf]) ++
      (lines'.flatMap (· ++ [Byte.lf]) ++ (closingLine ++ [Byte.lf])) =
        all.flatMap (· ++ [Byte.lf]) := by
    simp [all]
  have hskip : ∀ line ∈ lines, (line != mainLine) = true := by
    intro line hline
    simpa using (hlines line hline).2
  have hgo : ∀ line ∈ lines', (line != closingLine) = true := by
    intro line hline
    simpa using (hlines' line hline).2
  -- The opening line is the first of its kind and the closing line the first after it.
  have hinside : mainLines (all ++ [[]]) = lines' := by
    simp only [mainLines, all, List.append_assoc, List.cons_append]
    rw [List.dropWhile_append_of_pos hskip, List.dropWhile_cons_of_neg (by simp)]
    simp only [List.drop_succ_cons, List.drop_zero]
    rw [List.takeWhile_append_of_pos hgo]
    simp
  rw [htext, ofText, Newline.splitOn_flatMap hlf, hinside, hcalls]
  simp [all, hconstants, hnone, hmain.2, hclosing.2.1, hclosing.2.2]

end AssemblyReading

namespace Assembly

theorem lf_not_mem_symbol (index : Nat) : Byte.lf ∉ symbol index := by
  have hname : Byte.lf ∉ utf8 ".quill_text." := by decide
  rw [symbol, List.mem_append, not_or]
  exact ⟨hname, Decimal.lf_not_mem_ofNat index⟩

theorem lf_not_mem_argument (constants : List Bytes) (literal : Bytes) :
    Byte.lf ∉ argument constants literal := by
  have hfixed : Byte.lf ∉ utf8 "ptr @" ∧ Byte.lf ∉ utf8 ", i64 " := by decide
  simp only [argument, List.mem_append, not_or]
  exact ⟨⟨⟨hfixed.1, lf_not_mem_symbol _⟩, hfixed.2⟩, Decimal.lf_not_mem_ofNat _⟩

theorem lf_not_mem_constantLine (literal : Bytes) (index : Nat) :
    Byte.lf ∉ constantLine literal index := by
  have hfixed : Byte.lf ∉ utf8 "@" ∧ Byte.lf ∉ utf8 " = private unnamed_addr constant [" ∧
      Byte.lf ∉ utf8 " x i8] c\"" ∧ Byte.lf ∉ utf8 "\", align 1" := by decide
  obtain ⟨hat, hlinkage, hopen, hclose⟩ := hfixed
  have hbody : Byte.lf ∉ literal.flatMap escapeByte := fun h => (not_mem_escape h).1 rfl
  simp only [constantLine, List.mem_append, not_or]
  exact ⟨⟨⟨⟨⟨⟨hat, lf_not_mem_symbol _⟩, hlinkage⟩, Decimal.lf_not_mem_ofNat _⟩, hopen⟩, hbody⟩,
    hclose⟩

theorem lf_not_mem_callLine (constants : List Bytes) (call : Call) :
    Byte.lf ∉ callLine constants call := by
  have hfixed : Byte.lf ∉ utf8 "  call void @quill_append(ptr %buf, " ∧
      Byte.lf ∉ utf8 "  call void @quill_write_line(" ∧ Byte.lf ∉ utf8 ")" := by decide
  cases call with
  | append text =>
      simp only [callLine, List.mem_append, not_or]
      exact ⟨⟨hfixed.1, lf_not_mem_argument _ _⟩, hfixed.2.2⟩
  | printBuffer => exact (by decide : Byte.lf ∉ utf8 "  call void @quill_print_current(ptr %buf)")
  | writeLine text =>
      simp only [callLine, List.mem_append, not_or]
      exact ⟨⟨hfixed.2.1, lf_not_mem_argument _ _⟩, hfixed.2.2⟩

theorem segment_constantRow (literal : Bytes) (index : Nat) :
    Segment AssemblyReading.mainLine (constantRow literal index) [constantOf literal index] [] := by
  have hstop : constantLine literal index ≠ AssemblyReading.mainLine := by
    intro h
    have hhead : some (0x40 : UInt8) = some 0x64 := congrArg List.head? h
    exact absurd hhead (by decide)
  have hcall : NamedCall.ofLine? (constantLine literal index) = none := rfl
  have hline := Segment.line (lf_not_mem_constantLine literal index) hstop
  rw [ofLine_constantLine, hcall] at hline
  rw [constantRow_eq]
  exact hline

theorem segment_constantRows (constants : List Bytes) :
    Segment AssemblyReading.mainLine (constantRows constants)
      (constants.zipIdx.map fun c => constantOf c.1 c.2) [] := by
  have hrows := Segment.flatMap constants.zipIdx fun c _ => segment_constantRow c.1 c.2
  have hempty : Silent AssemblyReading.mainLine [] := by decide
  have hend : Segment AssemblyReading.mainLine (utf8 "\n") [] [] := Segment.silent hempty
  have hnone : constants.zipIdx.flatMap (fun _ => ([] : List NamedCall)) = [] :=
    List.flatMap_eq_nil_iff.mpr fun _ _ => rfl
  rw [hnone] at hrows
  have h := hrows.append (hend.when (!constants.isEmpty))
  rw [List.append_nil] at h
  rw [constantRows, List.map_eq_flatMap]
  exact h

theorem segment_callRow (constants : List Bytes) (call : Call) :
    Segment AssemblyReading.closingLine (callRow constants call) [] [namedCall constants call] := by
  have hstop : callLine constants call ≠ AssemblyReading.closingLine := by
    intro h
    have hhead : some (0x20 : UInt8) = some 0x7D := by
      cases call with
      | append text | printBuffer | writeLine text => exact congrArg List.head? h
    exact absurd hhead (by decide)
  have hconstant : Constant.ofLine? (callLine constants call) = none := by
    cases call with
    | append text | printBuffer | writeLine text => rfl
  have hline := Segment.line (lf_not_mem_callLine constants call) hstop
  rw [ofLine_callLine, hconstant] at hline
  rw [callRow_eq]
  exact hline

theorem segment_lineComment (line : UInt32) :
    Segment AssemblyReading.closingLine
      (utf8 "  ; line " ++ Decimal.ofWord line ++ utf8 "\n") [] [] := by
  have hfixed : Byte.lf ∉ utf8 "  ; line " := by decide
  refine Segment.silent ⟨?_, ?_, rfl, rfl⟩
  · rw [List.mem_append, not_or]
    exact ⟨hfixed, Decimal.lf_not_mem_ofNat _⟩
  · intro h
    have hhead : some (0x20 : UInt8) = some 0x7D := congrArg List.head? h
    exact absurd hhead (by decide)

theorem segment_bodyRows (constants : List Bytes) (step : UInt32 × Option Call) :
    Segment AssemblyReading.closingLine (bodyRows constants step) []
      (step.2.map (namedCall constants)).toList := by
  obtain ⟨line, call⟩ := step
  have hcomment := (segment_lineComment line).when (line != 0)
  cases call with
  | none => exact hcomment.append .nil
  | some call => exact hcomment.append (segment_callRow constants call)

end Assembly
end Linewise
