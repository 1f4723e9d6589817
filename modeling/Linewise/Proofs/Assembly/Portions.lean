import Linewise.Proofs.Assembly.Lowering
import Linewise.Proofs.Assembly.Names
/-!
The names in the portions of a lowered text. Most rows are fixed, and so are their names; a constant
declares its reference, and a call uses its helper and the reference of its literal.
-/
namespace Linewise

namespace Assembly

/-- The name of a constant as a text refers to it. -/
def reference (index : Nat) : Bytes := Byte.atSign :: symbol index

theorem isNameByte_of_mem_symbol {index : Nat} {b : UInt8} (h : b ∈ symbol index) :
    Byte.isNameByte b = true := by
  rcases List.mem_append.mp h with hname | hdigit
  · exact List.all_eq_true.mp
      (by decide : (utf8 ".quill_text.").all Byte.isNameByte = true) b hname
  · simp [Byte.isNameByte, Decimal.isDigit_of_mem_ofNat hdigit]

theorem all_isQuiet_symbol (index : Nat) : (symbol index).all Byte.isQuiet = true :=
  List.all_eq_true.mpr fun _ hb => Byte.isQuiet_of_isNameByte (isNameByte_of_mem_symbol hb)

theorem all_isPlain_reference (index : Nat) : (reference index).all Byte.isPlain = true := by
  rw [reference, List.all_cons, Byte.all_isPlain (all_isQuiet_symbol index)]
  rfl

/-- A name is read up to the first byte that cannot be in it. -/
theorem namesIn_reference (index : Nat) {b : UInt8} (hb : Byte.isNameByte b = false)
    (rest : Bytes) :
    namesIn (reference index ++ b :: rest) = reference index :: namesIn (b :: rest) := by
  have htake : (symbol index).takeWhile Byte.isNameByte = symbol index :=
    List.takeWhile_eq_self_iff.mpr fun _ hc => isNameByte_of_mem_symbol hc
  rw [reference, List.cons_append, namesIn, if_pos (by decide), takeWhile_append_cons hb,
    namesIn_append hb, namesIn_eq_nil (all_isQuiet_symbol index), htake, List.nil_append]

theorem declared_constantLine (literal : Bytes) (index : Nat) :
    declared? (constantLine literal index) = some (reference index) := by
  have hline : constantLine literal index = reference index ++ (Byte.space :: (utf8
      "= private unnamed_addr constant [" ++ (Decimal.ofNat literal.length ++ (utf8 " x i8] c\"" ++
        (literal.flatMap escapeByte ++ utf8 "\", align 1"))))) := by
    simp only [constantLine, List.append_assoc]
    rfl
  have hspace (rest : Bytes) :
      bare false (Byte.space :: rest) = Byte.space :: bare false rest := rfl
  have hsigil : (constantLine literal index).head?.any Byte.isSigil = true := rfl
  rw [declared?, hsigil, Bool.true_or, Bool.true_or, if_pos rfl, hline, names,
    bare_append (all_isPlain_reference index), hspace, namesIn_reference _ (by decide)]
  rfl

theorem portion_constantRow (literal : Bytes) (index : Nat) :
    Portion (constantRow literal index) [reference index] [] := by
  refine ⟨[constantLine literal index], ?_, ?_, rfl, ?_, rfl⟩
  · rw [constantRow_eq]
    simp
  · simpa using lf_not_mem_constantLine literal index
  · rw [List.filterMap_cons_some (declared_constantLine literal index)]
    rfl

theorem portion_empty : Portion (utf8 "\n") [] [] :=
  ⟨[[]], by decide, by decide, by decide, by decide, rfl⟩

theorem portion_constantRows (constants : List Bytes) :
    Portion (constantRows constants) ((List.range constants.length).map reference) [] := by
  have hrows := Portion.flatMap constants.zipIdx fun c _ => portion_constantRow c.1 c.2
  have hindices : constants.zipIdx.flatMap (fun c => [reference c.2]) =
      (List.range constants.length).map reference := by
    rw [← List.map_eq_flatMap, List.range_eq_range', ← List.zipIdx_map_snd 0 constants,
      List.map_map]
    rfl
  have h := hrows.append (portion_empty.when (!constants.isEmpty))
  rw [hindices, ite_self, ite_self, List.append_nil, List.append_nil] at h
  exact h

/-- The names that a call uses for the whole text. -/
def globals (constants : List Bytes) : Call → List Bytes
  | .append text => [utf8 "@quill_append", reference (constants.idxOf text)]
  | .printBuffer => [utf8 "@quill_print_current"]
  | .writeLine text => [utf8 "@quill_write_line", reference (constants.idxOf text)]

/-- All names in a call; those that touch the buffer name it too. -/
def callNames (constants : List Bytes) : Call → List Bytes
  | .append text => [utf8 "@quill_append", utf8 "%buf", reference (constants.idxOf text)]
  | .printBuffer => [utf8 "@quill_print_current", utf8 "%buf"]
  | .writeLine text => [utf8 "@quill_write_line", reference (constants.idxOf text)]

/-- What a call names behind its helper is its constant, which ends at a comma. -/
theorem names_argument {front : Bytes} (hfront : (front ++ utf8 "ptr ").all Byte.isPlain = true)
    (constants : List Bytes) (literal : Bytes) :
    names (front ++ (argument constants literal ++ utf8 ")")) =
      namesIn (front ++ utf8 "ptr ") ++ [reference (constants.idxOf literal)] := by
  let count := utf8 " i64 " ++ (Decimal.ofNat literal.length ++ utf8 ")")
  have hdigits : (Decimal.ofNat literal.length).all Byte.isQuiet = true := by
    refine List.all_eq_true.mpr fun b hb => Byte.isQuiet_of_isNameByte ?_
    simp [Byte.isNameByte, Decimal.isDigit_of_mem_ofNat hb]
  have hcount : (0x2C :: count).all Byte.isQuiet = true := by
    rw [List.all_cons, List.all_append, List.all_append, hdigits]
    decide
  have hline : front ++ (argument constants literal ++ utf8 ")") =
      front ++ utf8 "ptr " ++ (reference (constants.idxOf literal) ++ 0x2C :: count) := by
    have hptr : utf8 "ptr @" = utf8 "ptr " ++ [Byte.atSign] := by decide
    have hcomma : utf8 ", i64 " = 0x2C :: utf8 " i64 " := by decide
    simp only [argument, reference, count, hptr, hcomma, List.append_assoc, List.cons_append,
      List.nil_append]
  have hplain : (front ++ utf8 "ptr " ++
      (reference (constants.idxOf literal) ++ 0x2C :: count)).all Byte.isPlain = true := by
    rw [List.all_append, hfront, List.all_append, all_isPlain_reference, Byte.all_isPlain hcount]
    rfl
  rw [hline, names, bare_eq_self hplain, reference, List.cons_append, namesIn_append (by decide),
    ← List.cons_append, ← reference, namesIn_reference _ (by decide), namesIn_eq_nil hcount]

theorem names_callLine (constants : List Bytes) (call : Call) :
    names (callLine constants call) = callNames constants call := by
  cases call with
  | append text =>
      have hfront : (utf8 "  call void @quill_append(ptr %buf, " ++ utf8 "ptr ").all Byte.isPlain ∧
          namesIn (utf8 "  call void @quill_append(ptr %buf, " ++ utf8 "ptr ") =
            [utf8 "@quill_append", utf8 "%buf"] := by decide +kernel
      rw [callLine, List.append_assoc, names_argument hfront.1, hfront.2]
      rfl
  | printBuffer =>
      exact (by decide +kernel : names (utf8 "  call void @quill_print_current(ptr %buf)") =
        [utf8 "@quill_print_current", utf8 "%buf"])
  | writeLine text =>
      have hfront : (utf8 "  call void @quill_write_line(" ++ utf8 "ptr ").all Byte.isPlain ∧
          namesIn (utf8 "  call void @quill_write_line(" ++ utf8 "ptr ") =
            [utf8 "@quill_write_line"] := by decide +kernel
      rw [callLine, List.append_assoc, names_argument hfront.1, hfront.2]
      rfl

theorem inner_callLine (constants : List Bytes) (call : Call) :
    Inner (callLine constants call) ∧ bound? (callLine constants call) = none := by
  have hlf := lf_not_mem_callLine constants call
  cases call with
  | append text | printBuffer | writeLine text =>
      refine ⟨⟨hlf, ?_, rfl, rfl⟩, rfl⟩
      intro h
      have hhead : some (0x20 : UInt8) = some 0x7D := congrArg List.head? h
      exact absurd hhead (by decide)

theorem inside_lineComment (line : UInt32) :
    Inside (utf8 "  ; line " ++ Decimal.ofWord line ++ utf8 "\n") [] [] := by
  have hfixed : Byte.lf ∉ utf8 "  ; line " := by decide
  have hinner : Inner (utf8 "  ; line " ++ Decimal.ofWord line) := by
    refine ⟨?_, ?_, rfl, rfl⟩
    · rw [List.mem_append, not_or]
      exact ⟨hfixed, Decimal.lf_not_mem_ofNat _⟩
    · intro h
      have hhead : some (0x20 : UInt8) = some 0x7D := congrArg List.head? h
      exact absurd hhead (by decide)
  have hbound : bound? (utf8 "  ; line " ++ Decimal.ofWord line) = none := rfl
  have hnames : names (utf8 "  ; line " ++ Decimal.ofWord line) = [] := rfl
  have hline := Inside.line hinner
  rw [hbound, hnames] at hline
  exact hline

theorem inside_bodyRows (constants : List Bytes) (step : UInt32 × Option Call) :
    Inside (bodyRows constants step) [] (step.2.toList.flatMap (callNames constants)) := by
  obtain ⟨line, call⟩ := step
  have hcomment := (inside_lineComment line).when (line != 0)
  rw [ite_self] at hcomment
  cases call with
  | none => exact hcomment.append .nil
  | some call =>
      obtain ⟨hinner, hbound⟩ := inner_callLine constants call
      have hcall := Inside.line hinner
      rw [hbound, names_callLine, ← callRow_eq] at hcall
      have h := hcomment.append hcall
      simp only [Option.toList_some, List.flatMap_singleton]
      exact h

/-- The routine that writes a line. -/
def writeLineRoutine : Routine where
  name := utf8 "@quill_write_line"
  own := ["%p", "%n", "%entry", "%w0", "%w1"].map utf8
  free := ["@write", "@write", "@.quill_newline"].map utf8

/-- The routine that grows the buffer. -/
def appendRoutine : Routine where
  name := utf8 "@quill_append"
  own := ["%buf", "%src", "%n", "%entry", "%data.p", "%len.p", "%data", "%len", "%new.len",
    "%new.data", "%oom", "%fail", "%copy", "%dst", "%ignored"].map utf8
  free := ["%quill.buf", "%quill.buf", "@realloc", "@abort", "@memcpy"].map utf8

/-- The routine that writes the buffer as a line. -/
def printBufferRoutine : Routine where
  name := utf8 "@quill_print_current"
  own := ["%buf", "%entry", "%data.p", "%len.p", "%data", "%len"].map utf8
  free := ["%quill.buf", "%quill.buf", "@quill_write_line"].map utf8

/-- The fixed rows above the main function. -/
theorem portion_fixedRows :
    Portion typeRows [utf8 "%quill.buf"] [] ∧
      Portion newlineRows [utf8 "@.quill_newline"] [] ∧
      Portion writeDeclaration [utf8 "@write"] [] ∧
      Portion appendDeclarations [utf8 "@realloc", utf8 "@memcpy", utf8 "@abort"] [] ∧
      Portion freeDeclaration [utf8 "@free"] [] ∧
      Portion writeLineHelper [utf8 "@quill_write_line"] [writeLineRoutine] ∧
      Portion appendHelper [utf8 "@quill_append"] [appendRoutine] ∧
      Portion printBufferHelper [utf8 "@quill_print_current"] [printBufferRoutine] := by
  refine ⟨.rows ?_ ?_ ?_ ?_, .rows ?_ ?_ ?_ ?_, .rows ?_ ?_ ?_ ?_, .rows ?_ ?_ ?_ ?_,
    .rows ?_ ?_ ?_ ?_, .rows ?_ ?_ ?_ ?_, .rows ?_ ?_ ?_ ?_, .rows ?_ ?_ ?_ ?_⟩
  all_goals
    simp only [List.map_cons, List.map_nil, writeLineRoutine, appendRoutine, printBufferRoutine]
    repeat rw [utf8_ofList]
    decide +kernel

theorem portion_header : Portion ({} : AssemblyHeader).write [] [] := by
  have hrows : ({} : AssemblyHeader).write =
      Bytes.ofRows ["; ModuleID = 'quill.qir'", "source_filename = \"quill.qir\"", ""] := by
    decide +kernel
  rw [hrows]
  refine .rows ?_ ?_ ?_ ?_
  all_goals
    simp only [List.map_cons, List.map_nil]
    repeat rw [utf8_ofList]
    decide +kernel

/-- The rows around the calls of the main function. -/
theorem inside_fixedRows :
    Inside (Bytes.ofRows ["entry:"]) [utf8 "%entry"] [] ∧
      Inside bufferSetup [utf8 "%buf"]
        (["%buf", "%quill.buf", "%quill.buf", "%buf"].map utf8) ∧
      Inside bufferRelease [utf8 "%final.data.p", utf8 "%final.data"]
        (["%final.data.p", "%quill.buf", "%buf", "%final.data", "%final.data.p", "@free",
          "%final.data"].map utf8) ∧
      Inside (Bytes.ofRows ["  ret i32 0"]) [] [] := by
  refine ⟨.rows ?_ ?_ ?_, .rows ?_ ?_ ?_, .rows ?_ ?_ ?_, .rows ?_ ?_ ?_⟩
  all_goals
    simp only [List.map_cons, List.map_nil]
    repeat rw [utf8_ofList]
    decide +kernel

variable (a : Assembly)

/-- The names that the main function binds. -/
def mainOwn : List Bytes :=
  [utf8 "%entry"] ++ (if a.hasBuffer then [utf8 "%buf"] else []) ++
    if a.hasBuffer then [utf8 "%final.data.p", utf8 "%final.data"] else []

def mainUsed : List Bytes :=
  (if a.hasBuffer then ["%buf", "%quill.buf", "%quill.buf", "%buf"].map utf8 else []) ++
    a.calls.flatMap (callNames a.constants) ++
    if a.hasBuffer then
      ["%final.data.p", "%quill.buf", "%buf", "%final.data", "%final.data.p", "@free",
        "%final.data"].map utf8
    else []

def mainRoutine : Routine := .ofNames (utf8 "@main") a.mainOwn a.mainUsed

theorem inside_mainBody : Inside a.mainBody a.mainOwn a.mainUsed := by
  obtain ⟨entry, setup, release, ending⟩ := inside_fixedRows
  have body := Inside.flatMap a.body fun step _ => inside_bodyRows a.constants step
  have hnone : a.body.flatMap (fun _ => ([] : List Bytes)) = [] :=
    List.flatMap_eq_nil_iff.mpr fun _ _ => rfl
  have hcalls : a.body.flatMap (fun step => step.2.toList.flatMap (callNames a.constants)) =
      a.calls.flatMap (callNames a.constants) := by
    rw [calls, List.filterMap_eq_flatMap_toList, List.flatMap_assoc]
  rw [hnone, hcalls] at body
  have h := (((entry.append (setup.when a.hasBuffer)).append body).append
    (release.when a.hasBuffer)).append ending
  rw [List.append_nil, List.append_nil, List.append_nil, List.nil_append] at h
  exact h

/-- The names that the text of an assembly declares or defines, in the order in which it does. -/
def declarations : List Bytes :=
  (if a.hasBuffer then [utf8 "%quill.buf"] else []) ++
    (List.range a.constants.length).map reference ++
    (if a.writes then [utf8 "@.quill_newline"] else []) ++
    (if a.writes then [utf8 "@write"] else []) ++
    (if a.appends then [utf8 "@realloc", utf8 "@memcpy", utf8 "@abort"] else []) ++
    (if a.hasBuffer then [utf8 "@free"] else []) ++
    (if a.writes then [utf8 "@quill_write_line"] else []) ++
    (if a.appends then [utf8 "@quill_append"] else []) ++
    (if a.printsBuffer then [utf8 "@quill_print_current"] else []) ++ [utf8 "@main"]

/-- The routines of the text of an assembly. -/
def routines : List Routine :=
  (if a.writes then [writeLineRoutine] else []) ++ (if a.appends then [appendRoutine] else []) ++
    (if a.printsBuffer then [printBufferRoutine] else []) ++ [a.mainRoutine]

theorem portion_code :
    Portion (({} : AssemblyHeader).write ++ a.code) a.declarations a.routines := by
  obtain ⟨type, newline, write, append, free, writeLine, appending, printing⟩ := portion_fixedRows
  have hmain : opens AssemblyReading.mainLine = true ∧ Byte.lf ∉ AssemblyReading.mainLine ∧
      names AssemblyReading.mainLine = [utf8 "@main"] := by decide
  have main := Portion.routine hmain.1 hmain.2.1 a.inside_mainBody hmain.2.2
  have h := portion_header.append (type.when a.hasBuffer)
    |>.append (portion_constantRows a.constants) |>.append (newline.when a.writes)
    |>.append (write.when a.writes) |>.append (append.when a.appends)
    |>.append (free.when a.hasBuffer) |>.append portion_empty |>.append (writeLine.when a.writes)
    |>.append (appending.when a.appends) |>.append (printing.when a.printsBuffer) |>.append main
  rw [write_code_eq, List.append_assoc]
  simp only [ite_self, List.nil_append, List.append_nil] at h
  exact h

theorem names_code :
    AssemblyNames.ofText (({} : AssemblyHeader).write ++ a.code) = ⟨a.declarations, a.routines⟩ :=
  AssemblyNames.ofText_of_portion a.portion_code

end Assembly
end Linewise
