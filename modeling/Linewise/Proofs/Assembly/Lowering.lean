import Linewise.Proofs.Assembly.Segments
import Linewise.Strategy
/-!
The text of an assembly is read back as the table of its constants and the calls of its main
function. Everything else in it is fixed, and none of the fixed lines says anything.
-/
namespace Linewise

namespace Assembly

def table (constants : List Bytes) : List Constant :=
  constants.zipIdx.map fun c => constantOf c.1 c.2

/-- The text above the main function. -/
def preamble (a : Assembly) : Bytes :=
  ({} : AssemblyHeader).write ++ Bytes.when a.hasBuffer typeRows ++ constantRows a.constants ++
    Bytes.when a.writes newlineRows ++ Bytes.when a.writes writeDeclaration ++
    Bytes.when a.appends appendDeclarations ++ Bytes.when a.hasBuffer freeDeclaration ++
    utf8 "\n" ++ Bytes.when a.writes writeLineHelper ++ Bytes.when a.appends appendHelper ++
    Bytes.when a.printsBuffer printBufferHelper

/-- The text between the opening and the closing line of the main function. -/
def mainBody (a : Assembly) : Bytes :=
  Bytes.ofRows ["entry:"] ++ Bytes.when a.hasBuffer bufferSetup ++
    a.body.flatMap (bodyRows a.constants) ++ Bytes.when a.hasBuffer bufferRelease ++
    Bytes.ofRows ["  ret i32 0"]

theorem write_code_eq (a : Assembly) :
    ({} : AssemblyHeader).write ++ a.code =
      a.preamble ++ (AssemblyReading.mainLine ++ [Byte.lf]) ++
        (a.mainBody ++ (AssemblyReading.closingLine ++ [Byte.lf])) := by
  have hopen : Bytes.ofRows ["define i32 @main() \x7b", "entry:"] =
      AssemblyReading.mainLine ++ [Byte.lf] ++ Bytes.ofRows ["entry:"] := by decide
  have hclose : Bytes.ofRows ["  ret i32 0", "\x7d"] =
      Bytes.ofRows ["  ret i32 0"] ++ (AssemblyReading.closingLine ++ [Byte.lf]) := by decide
  simp only [code, mainRows, preamble, mainBody, hopen, hclose, List.append_assoc]

theorem segment_fixedRows :
    Segment AssemblyReading.mainLine typeRows [] [] ∧
      Segment AssemblyReading.mainLine newlineRows [] [] ∧
      Segment AssemblyReading.mainLine writeDeclaration [] [] ∧
      Segment AssemblyReading.mainLine appendDeclarations [] [] ∧
      Segment AssemblyReading.mainLine freeDeclaration [] [] ∧
      Segment AssemblyReading.mainLine writeLineHelper [] [] ∧
      Segment AssemblyReading.mainLine appendHelper [] [] ∧
      Segment AssemblyReading.mainLine printBufferHelper [] [] := by
  refine ⟨.rows ?_, .rows ?_, .rows ?_, .rows ?_, .rows ?_, .rows ?_, .rows ?_, .rows ?_⟩
  all_goals
    simp only [List.forall_mem_cons]
    repeat rw [utf8_ofList]
    decide +kernel

theorem segment_header :
    Segment AssemblyReading.mainLine ({} : AssemblyHeader).write [] [] := by
  have hrows : ({} : AssemblyHeader).write =
      Bytes.ofRows ["; ModuleID = 'quill.qir'", "source_filename = \"quill.qir\"", ""] := by
    decide +kernel
  rw [hrows]
  refine .rows ?_
  simp only [List.forall_mem_cons]
  repeat rw [utf8_ofList]
  decide +kernel

theorem segment_preamble (a : Assembly) :
    Segment AssemblyReading.mainLine a.preamble (table a.constants) [] := by
  obtain ⟨type, newline, write, append, free, writeLine, appending, printing⟩ := segment_fixedRows
  have empty : Segment AssemblyReading.mainLine (Bytes.ofRows [""]) [] [] := .rows (by decide)
  exact (segment_header.followed (type.when _)).append (segment_constantRows a.constants)
    |>.followed (newline.when _) |>.followed (write.when _) |>.followed (append.when _)
    |>.followed (free.when _) |>.followed empty |>.followed (writeLine.when _)
    |>.followed (appending.when _) |>.followed (printing.when _)

theorem segment_bufferRows :
    Segment AssemblyReading.closingLine bufferSetup [] [] ∧
      Segment AssemblyReading.closingLine bufferRelease [] [] := by
  refine ⟨.rows ?_, .rows ?_⟩
  all_goals
    simp only [List.forall_mem_cons]
    repeat rw [utf8_ofList]
    decide +kernel

theorem segment_mainBody (a : Assembly) :
    Segment AssemblyReading.closingLine a.mainBody [] (a.calls.map (namedCall a.constants)) := by
  obtain ⟨setup, release⟩ := segment_bufferRows
  have entry : Segment AssemblyReading.closingLine (Bytes.ofRows ["entry:"]) [] [] :=
    .rows (by decide)
  have ending : Segment AssemblyReading.closingLine (Bytes.ofRows ["  ret i32 0"]) [] [] :=
    .rows (by decide)
  have body := Segment.flatMap a.body fun step _ => segment_bodyRows a.constants step
  have hnone : a.body.flatMap (fun _ => ([] : List Constant)) = [] :=
    List.flatMap_eq_nil_iff.mpr fun _ _ => rfl
  have hcalls : a.body.flatMap (fun step => (step.2.map (namedCall a.constants)).toList) =
      a.calls.map (namedCall a.constants) := by
    rw [calls, List.map_filterMap, List.filterMap_eq_flatMap_toList]
  rw [hnone, hcalls] at body
  exact (entry.followed (setup.when _)).append body |>.followed (release.when _) |>.followed ending

/-- The text is read back as the constants and the calls that it was made from. -/
theorem ofText_code (a : Assembly) :
    AssemblyReading.ofText (({} : AssemblyHeader).write ++ a.code) =
      ⟨table a.constants, a.calls.map (namedCall a.constants)⟩ := by
  rw [write_code_eq]
  exact AssemblyReading.ofText_of_segments a.segment_preamble a.segment_mainBody

end Assembly
end Linewise
