import Linewise.Proofs.Assembly.Header
import Linewise.Proofs.Listing.Verified
import Mathlib.Data.List.Infix
/-!
Listings that pass as optimized, down to the assembly text. They need no text built up, so outside
of strings their assembly holds no word that has to do with one: no buffer, no helper for it and
nothing that is allocated.
-/
namespace Linewise

/-- A text without what stands between double quotes. -/
def unquoted (inside : Bool) : Bytes → Bytes
  | [] => []
  | b :: rest =>
    if b = Byte.quote then b :: unquoted (!inside) rest
    else if inside then unquoted inside rest else b :: unquoted inside rest

/-- The words of a text that is built up: its type and its place, its helpers, and the routines that
allocate memory for it. -/
def bufferWords : List Bytes :=
  ["%quill.buf", "%buf", "quill_append", "quill_print_current", "alloc", "memcpy", "free"].map utf8

/-- None of these words occurs. -/
def Wordless (s : Bytes) : Prop := ∀ w ∈ bufferWords, ¬ w <:+: s

instance (s : Bytes) : Decidable (Wordless s) := inferInstanceAs (Decidable (∀ w ∈ bufferWords, _))

/-- Outside of strings, none of these words occurs. -/
def Unbuffered (text : Bytes) : Prop := Wordless (unquoted false text)

/-- A pattern stands on one side of a byte that it does not hold. -/
theorem infix_append_cons {p s t : Bytes} {b : UInt8} (hb : b ∉ p) (h : p <:+: s ++ b :: t) :
    p <:+: s ∨ p <:+: t := by
  obtain ⟨front, back, heq⟩ := h
  rcases List.append_eq_append_iff.mp heq with ⟨rest, rfl, -⟩ | ⟨rest, hfront, hback⟩
  · exact .inl ⟨front, rest, rfl⟩
  · cases rest with
    | nil => exact .inl ⟨front, [], by simpa using hfront⟩
    | cons c rest =>
        obtain ⟨rfl, rfl⟩ := List.cons.inj hback
        rcases List.append_eq_append_iff.mp hfront with ⟨rest', -, hp⟩ | ⟨rest', -, hp⟩
        · exact absurd (hp ▸ by simp) hb
        · cases rest' with
          | nil =>
              rw [List.nil_append] at hp
              exact absurd (hp ▸ List.mem_cons_self) hb
          | cons c rest' =>
              obtain ⟨rfl, rfl⟩ := List.cons.inj hp
              exact .inr ⟨rest', back, rfl⟩

def Byte.apostrophe : UInt8 := 0x27

/-- The bytes that are in none of these words. -/
def Byte.separates (b : UInt8) : Prop := ∀ w ∈ bufferWords, b ∉ w

theorem separates_of {b : UInt8}
    (hb : b ∈ [Byte.lf, Byte.quote, Byte.apostrophe] ∨ Byte.isDigit b = true) :
    Byte.separates b := by
  have hword : ∀ w ∈ bufferWords, ∀ c ∈ w,
      c ∉ [Byte.lf, Byte.quote, Byte.apostrophe] ∧ ¬ Byte.isDigit c = true := by
    decide +kernel
  intro w hw hmem
  obtain ⟨hother, hdigit⟩ := hword w hw b hmem
  exact hb.elim hother hdigit

namespace Wordless
variable {s t : Bytes} {b : UInt8}

theorem nil : Wordless [] := by decide +kernel

theorem append_cons (hb : Byte.separates b) (hs : Wordless s) (ht : Wordless t) :
    Wordless (s ++ b :: t) :=
  fun w hw h => (infix_append_cons (hb w hw) h).elim (hs w hw) (ht w hw)

theorem append_left (hs : ∀ b ∈ s, Byte.separates b) (ht : Wordless t) : Wordless (s ++ t) := by
  induction s with
  | nil => exact ht
  | cons b s ih =>
      rw [List.forall_mem_cons] at hs
      exact append_cons hs.1 nil (ih hs.2)

/-- A number keeps what stands around it apart. -/
theorem around_number (hs : Wordless s) (n : Nat) (ht : Wordless t) :
    Wordless (s ++ (Decimal.ofNat n ++ t)) := by
  have hseparates : ∀ b ∈ Decimal.ofNat n, Byte.separates b := fun b hb =>
    separates_of (.inr (Decimal.isDigit_of_mem_ofNat hb))
  cases hdigits : Decimal.ofNat n with
  | nil => exact absurd hdigits (Decimal.ofNat_ne_nil n)
  | cons b digits =>
      rw [hdigits, List.forall_mem_cons] at hseparates
      exact append_cons hseparates.1 hs (append_left hseparates.2 ht)

end Wordless

/-- A text without quotes and without any of these words. -/
structure Plain (s : Bytes) : Prop where
  quote : Byte.quote ∉ s
  words : Wordless s

instance (s : Bytes) : Decidable (Plain s) :=
  decidable_of_iff (Byte.quote ∉ s ∧ Wordless s) ⟨fun h => ⟨h.1, h.2⟩, fun h => ⟨h.1, h.2⟩⟩

theorem Plain.around_number {s t : Bytes} (hs : Plain s) (n : Nat) (ht : Plain t) :
    Plain (s ++ (Decimal.ofNat n ++ t)) := by
  refine ⟨?_, hs.words.around_number n ht.words⟩
  have hdigits : Byte.quote ∉ Decimal.ofNat n := fun h =>
    absurd (Decimal.isDigit_of_mem_ofNat h) (by decide)
  simp only [List.mem_append, not_or]
  exact ⟨hs.quote, hdigits, ht.quote⟩

theorem Plain.around_apostrophe {s t : Bytes} (hs : Plain s) (ht : Plain t) :
    Plain (s ++ Byte.apostrophe :: t) := by
  refine ⟨?_, hs.words.append_cons (separates_of (.inl (by decide))) ht.words⟩
  rw [List.mem_append, List.mem_cons, not_or, not_or]
  exact ⟨hs.quote, by decide, ht.quote⟩

/-- The text closes what it quotes, and this is what stands outside. -/
def Outside (text outside : Bytes) : Prop :=
  ∀ rest, unquoted false (text ++ rest) = outside ++ unquoted false rest

namespace Outside
variable {text text' outside outside' : Bytes}

theorem nil : Outside [] [] := fun _ => rfl

theorem append (h : Outside text outside) (h' : Outside text' outside') :
    Outside (text ++ text') (outside ++ outside') := by
  intro rest
  rw [List.append_assoc, h, h', List.append_assoc]

theorem plain {text : Bytes} (h : Byte.quote ∉ text) : Outside text text := by
  intro rest
  induction text with
  | nil => rfl
  | cons b text ih =>
      rw [List.mem_cons, not_or] at h
      rw [List.cons_append, unquoted, if_neg (Ne.symm h.1), if_neg (by decide), ih h.2]
      rfl

theorem string {body : Bytes} (h : Byte.quote ∉ body) :
    Outside (Byte.quote :: (body ++ [Byte.quote])) [Byte.quote, Byte.quote] := by
  intro rest
  have hclose : unquoted true (body ++ Byte.quote :: rest) =
      Byte.quote :: unquoted false rest := by
    induction body with
    | nil => rfl
    | cons b body ih =>
        rw [List.mem_cons, not_or] at h
        rw [List.cons_append, unquoted, if_neg (Ne.symm h.1), if_pos rfl, ih h.2]
  rw [List.cons_append, List.append_assoc, unquoted, if_pos rfl]
  exact congrArg (Byte.quote :: ·) hclose

end Outside

/-- Rows that close what they quote and hold none of the words outside. -/
def UnbufferedRows (text : Bytes) : Prop :=
  ∃ lines : List Bytes, Outside text (lines.flatMap (· ++ [Byte.lf])) ∧
    ∀ line ∈ lines, Wordless line

namespace UnbufferedRows
variable {text text' : Bytes}

theorem nil : UnbufferedRows [] := ⟨[], .nil, by simp⟩

theorem append (h : UnbufferedRows text) (h' : UnbufferedRows text') :
    UnbufferedRows (text ++ text') := by
  obtain ⟨lines, houtside, hlines⟩ := h
  obtain ⟨lines', houtside', hlines'⟩ := h'
  refine ⟨lines ++ lines', ?_, List.forall_mem_append.mpr ⟨hlines, hlines'⟩⟩
  rw [List.flatMap_append]
  exact houtside.append houtside'

theorem when (condition : Bool) (h : UnbufferedRows text) :
    UnbufferedRows (Bytes.when condition text) := by
  cases condition with
  | false => exact nil
  | true => exact h

theorem flatMap {α : Type} (xs : List α) {write : α → Bytes}
    (h : ∀ x ∈ xs, UnbufferedRows (write x)) : UnbufferedRows (xs.flatMap write) := by
  induction xs with
  | nil => exact nil
  | cons x xs ih =>
      rw [List.forall_mem_cons] at h
      exact h.1.append (ih h.2)

theorem row {line outside : Bytes} (h : Outside line outside) (hwords : Wordless outside) :
    UnbufferedRows (line ++ [Byte.lf]) := by
  refine ⟨[outside], ?_, by simpa using hwords⟩
  have hlf : Outside [Byte.lf] [Byte.lf] := .plain (by decide)
  simpa using h.append hlf

theorem plain {line : Bytes} (h : Plain line) : UnbufferedRows (line ++ [Byte.lf]) :=
  row (.plain h.quote) h.words

/-- It does not matter what a string holds. -/
theorem quoted {front body back : Bytes} (hfront : Plain front) (hbody : Byte.quote ∉ body)
    (hback : Plain back) :
    UnbufferedRows (front ++ Byte.quote :: (body ++ [Byte.quote]) ++ back ++ [Byte.lf]) := by
  have hquote : Byte.separates Byte.quote := separates_of (.inl (by decide))
  have hwords : Wordless (front ++ [Byte.quote, Byte.quote] ++ back) := by
    rw [List.append_assoc]
    exact .append_cons hquote hfront.words (.append_cons hquote .nil hback.words)
  exact row (((Outside.plain hfront.quote).append (.string hbody)).append (.plain hback.quote))
    hwords

theorem rows {rs : List String} (h : ∀ r ∈ rs, Plain (utf8 r)) : UnbufferedRows (Bytes.ofRows rs) :=
  flatMap rs fun r hr => plain (h r hr)

/-- Words do not reach over the end of a row. -/
theorem unbuffered (h : UnbufferedRows text) : Unbuffered text := by
  obtain ⟨lines, houtside, hlines⟩ := h
  have hall := houtside []
  rw [List.append_nil, unquoted, List.append_nil] at hall
  rw [Unbuffered, hall]
  clear houtside hall
  induction lines with
  | nil => exact .nil
  | cons line lines ih =>
      rw [List.forall_mem_cons] at hlines
      rw [List.flatMap_cons, List.append_assoc]
      exact .append_cons (separates_of (.inl (by decide))) hlines.1 (ih hlines.2)

end UnbufferedRows

namespace Assembly

theorem unbufferedRows_fixed :
    UnbufferedRows writeDeclaration ∧ UnbufferedRows writeLineHelper ∧
      UnbufferedRows (Bytes.ofRows ["define i32 @main() \x7b", "entry:"]) ∧
      UnbufferedRows (Bytes.ofRows ["  ret i32 0", "\x7d"]) := by
  refine ⟨.rows ?_, .rows ?_, .rows ?_, .rows ?_⟩
  all_goals
    simp only [List.forall_mem_cons]
    repeat rw [utf8_ofList]
    decide +kernel

theorem unbufferedRows_empty : UnbufferedRows (utf8 "\n") := .row .nil .nil

/-- What stands between the parts of a row that vary. -/
theorem plain_pieces :
    (Plain (utf8 "@.quill_newline = private unnamed_addr constant [1 x i8] c") ∧
      Plain (utf8 ", align 1")) ∧
    (Plain (utf8 "@.quill_text.") ∧ Plain (utf8 " = private unnamed_addr constant [") ∧
      Plain (utf8 " x i8] c")) ∧
    (Plain (utf8 "  call void @quill_write_line(ptr @.quill_text.") ∧ Plain (utf8 ", i64 ") ∧
      Plain (utf8 ")")) ∧
    Plain (utf8 "  ; line ") ∧ Plain [] := by
  repeat rw [utf8_ofList]
  decide +kernel

theorem unbufferedRows_newlineRows : UnbufferedRows newlineRows := by
  have hrows : newlineRows =
      utf8 "@.quill_newline = private unnamed_addr constant [1 x i8] c" ++
        Byte.quote :: (utf8 "\\0A" ++ [Byte.quote]) ++ utf8 ", align 1" ++ [Byte.lf] ++
          utf8 "\n" := by
    rw [newlineRows, Bytes.ofRows, List.flatMap_cons, List.flatMap_cons]
    repeat rw [utf8_ofList]
    rfl
  rw [hrows]
  exact .append (.quoted plain_pieces.1.1 (by decide) plain_pieces.1.2) unbufferedRows_empty

theorem unbufferedRows_constantRow (literal : Bytes) (index : Nat) :
    UnbufferedRows (constantRow literal index) := by
  obtain ⟨⟨-, hback⟩, ⟨hname, hlinkage, hsize⟩, -⟩ := plain_pieces
  have hbody : Byte.quote ∉ literal.flatMap escapeByte := fun h => (not_mem_escape h).2 rfl
  have hkey : utf8 " = private unnamed_addr constant [" =
      utf8 " = " ++ (utf8 "private unnamed_addr constant " ++ utf8 "[") := by
    repeat rw [utf8_ofList]
    rfl
  have hopen : utf8 " x i8] c\"" = utf8 " x i8] c" ++ [Byte.quote] := by
    repeat rw [utf8_ofList]
    rfl
  have hrow := UnbufferedRows.quoted
    (hname.around_number index (hlinkage.around_number literal.length hsize)) hbody hback
  rw [constantRow_eq, constantLine_eq, hopen]
  simpa only [hkey, List.append_assoc, List.cons_append, List.nil_append] using hrow

theorem unbufferedRows_constantRows (constants : List Bytes) :
    UnbufferedRows (constantRows constants) :=
  (UnbufferedRows.flatMap constants.zipIdx fun c _ => unbufferedRows_constantRow c.1 c.2).append
    (unbufferedRows_empty.when _)

theorem unbufferedRows_writeLine (constants : List Bytes) (literal : Bytes) :
    UnbufferedRows (callRow constants (.writeLine literal)) := by
  obtain ⟨-, -, ⟨hcall, hsize, hclose⟩, -⟩ := plain_pieces
  have hname : utf8 "  call void @quill_write_line(ptr @.quill_text." =
      utf8 "  call void @quill_write_line(" ++ (utf8 "ptr @" ++ utf8 ".quill_text.") := by
    repeat rw [utf8_ofList]
    rfl
  have hline : callLine constants (.writeLine literal) =
      utf8 "  call void @quill_write_line(ptr @.quill_text." ++
        (Decimal.ofNat (constants.idxOf literal) ++ (utf8 ", i64 " ++
          (Decimal.ofNat literal.length ++ utf8 ")"))) := by
    simp only [callLine, argument, symbol, hname, List.append_assoc]
  rw [callRow_eq, hline]
  exact .plain (hcall.around_number _ (hsize.around_number _ hclose))

theorem unbufferedRows_bodyRows (constants : List Bytes) (line : UInt32) (literal : Bytes) :
    UnbufferedRows (bodyRows constants (line, some (.writeLine literal))) := by
  obtain ⟨-, -, -, hcomment, hnil⟩ := plain_pieces
  have hline := UnbufferedRows.plain (hcomment.around_number line.toNat hnil)
  rw [List.append_nil] at hline
  exact (hline.when _).append (unbufferedRows_writeLine constants literal)

/-- An assembly that only writes literals has no need for a buffer. -/
theorem unbufferedRows_code {a : Assembly}
    (h : ∀ step ∈ a.body, ∃ literal, step.2 = some (.writeLine literal)) :
    UnbufferedRows a.code := by
  have hcalls : ∀ call ∈ a.calls, ∃ literal, call = .writeLine literal := by
    intro call hcall
    obtain ⟨step, hstep, hsome⟩ := List.mem_filterMap.mp hcall
    obtain ⟨literal, hliteral⟩ := h step hstep
    rw [hsome] at hliteral
    exact ⟨literal, Option.some.inj hliteral⟩
  have happends : a.appends = false := by
    refine List.any_eq_false.mpr fun call hcall => ?_
    obtain ⟨literal, rfl⟩ := hcalls call hcall
    exact Bool.false_ne_true
  have hprints : a.printsBuffer = false := by
    refine List.any_eq_false.mpr fun call hcall => ?_
    obtain ⟨literal, rfl⟩ := hcalls call hcall
    exact Bool.false_ne_true
  have hbuffer : a.hasBuffer = false := by rw [hasBuffer, happends, hprints, Bool.or_false]
  have hbody : UnbufferedRows (a.body.flatMap (bodyRows a.constants)) := by
    refine .flatMap a.body fun step hstep => ?_
    obtain ⟨literal, hliteral⟩ := h step hstep
    rw [← Prod.eta step, hliteral]
    exact unbufferedRows_bodyRows a.constants step.1 literal
  obtain ⟨hdeclaration, hhelper, hopen, hclose⟩ := unbufferedRows_fixed
  simp only [code, mainRows, hbuffer, happends, hprints, Bytes.when, Bool.false_eq_true, if_false,
    List.nil_append, List.append_nil]
  exact (((((unbufferedRows_constantRows _).append (unbufferedRows_newlineRows.when _)).append
    (hdeclaration.when _)).append unbufferedRows_empty).append (hhelper.when _)).append
      ((hopen.append hbody).append hclose)

end Assembly

/-- Nothing that is put into the header leaves a string open or holds one of the words where it
shows outside of a string. -/
structure AssemblyHeader.Unbuffered (h : AssemblyHeader) : Prop where
  name : Plain h.moduleName
  target : Byte.quote ∉ h.target

namespace AssemblyHeader

theorem unbuffered_default : ({} : AssemblyHeader).Unbuffered :=
  ⟨by decide +kernel, by decide⟩

theorem Unbuffered.rows {h : AssemblyHeader} (hh : h.Unbuffered) : UnbufferedRows h.write := by
  have hkeys : Plain (utf8 "; ModuleID = ") ∧ Plain (utf8 "source_filename = ") ∧
      Plain (utf8 "target triple = ") ∧ Plain [] := by
    repeat rw [utf8_ofList]
    decide +kernel
  obtain ⟨hmodule, hsource, htriple, hnil⟩ := hkeys
  have hopen : utf8 "; ModuleID = '" = utf8 "; ModuleID = " ++ [Byte.apostrophe] ∧
      utf8 "source_filename = \"" = utf8 "source_filename = " ++ [Byte.quote] ∧
      utf8 "target triple = \"" = utf8 "target triple = " ++ [Byte.quote] := by
    repeat rw [utf8_ofList]
    decide +kernel
  have hclose : utf8 "'" = [Byte.apostrophe] ∧ utf8 "\"" = [Byte.quote] := by decide
  rw [write_eq_rows]
  refine .flatMap h.rows fun line hline => ?_
  rw [AssemblyHeader.rows, List.mem_append, List.mem_append, List.mem_pair,
    List.mem_singleton] at hline
  rcases hline with ((rfl | rfl) | htarget) | rfl
  · have hrow := UnbufferedRows.plain (hmodule.around_apostrophe (hh.name.around_apostrophe hnil))
    simpa only [hopen, hclose, List.append_assoc, List.cons_append, List.nil_append] using hrow
  · have hrow := UnbufferedRows.quoted hsource hh.name.quote hnil
    simpa only [hopen, hclose, List.append_assoc, List.cons_append, List.nil_append] using hrow
  · split_ifs at htarget with hnone
    · cases htarget
    · obtain rfl := List.mem_singleton.mp htarget
      have hrow := UnbufferedRows.quoted htriple hh.target hnil
      simpa only [hopen, hclose, List.append_assoc, List.cons_append, List.nil_append] using hrow
  · exact .plain hnil

end AssemblyHeader

namespace Listing

theorem unbufferedRows_of_printsLiterals {l : Listing}
    (h : PrintsLiterals (l.instrs.map (·.op))) : UnbufferedRows (Assembly.ofListing l).code := by
  refine Assembly.unbufferedRows_code fun step hstep => ?_
  obtain ⟨i, hi, rfl⟩ := List.mem_map.mp hstep
  have hlive : i.op ≠ .halt := by simpa using List.mem_takeWhile_imp hi
  have hmem : i ∈ l.instrs := (List.takeWhile_prefix _).subset hi
  obtain ⟨value, hop⟩ := h.of_mem (List.mem_map_of_mem hmem) hlive
  exact ⟨value, by rw [hop]; rfl⟩

/-- What passes as an optimized listing passes as any. -/
theorem verify_strictness_of_optimized {l : Listing} (h : l.verify .optimized = []) :
    l.verify l.strictness = [] := by
  rw [strictness]
  split
  · exact h
  · have hliterals := (misplacedFrom_optimized_eq_nil_iff 0 l.instrs).mp h
    exact (misplacedFrom_any_eq_nil_iff 0 l.instrs).mpr hliterals.halt_not_mem_dropLast

/-- A verification finds exactly what offends, so it passes exactly the listings in the form that it
is for. An optimized one is executed by printing its literals, and its assembly has no buffer. -/
theorem verify_decides (l : Listing) :
    (l.verify .optimized = [] ↔ PrintsLiterals (l.instrs.map (·.op))) ∧
      (l.verify .any = [] ↔ .halt ∉ (l.instrs.map (·.op)).dropLast) ∧
      (∀ strictness, (l.verify strictness).map (·.index) =
        (List.range l.instrs.length).filter (Offends strictness l.instrs ·)) ∧
      (l.verify .optimized = [] →
        l.execute.outputs = l.instrs.filterMap (·.op.literal?) ∧
          ∃ code, Unbuffered code ∧ ∀ h : AssemblyHeader, l.lower h = .ok (h.write ++ code) ∧
            (h.Unbuffered → Unbuffered (h.write ++ code))) := by
  have hoptimized : l.verify .optimized = [] ↔ PrintsLiterals (l.instrs.map (·.op)) :=
    misplacedFrom_optimized_eq_nil_iff 0 l.instrs
  refine ⟨hoptimized, misplacedFrom_any_eq_nil_iff 0 l.instrs, l.map_index_verify, fun h => ?_⟩
  have hliterals := hoptimized.mp h
  have hcode := unbufferedRows_of_printsLiterals hliterals
  refine ⟨outputs_execute_of_printsLiterals hliterals, _, hcode.unbuffered, fun header => ⟨?_, ?_⟩⟩
  · rw [lower, verify_strictness_of_optimized h]
    rfl
  · exact fun hheader => (hheader.rows.append hcode).unbuffered

/-- A literal that spells a helper stays in its string. -/
theorem verify_decides_at_helper_literal :
    let l : Listing := { instrs := [⟨.printLiteral (utf8 "@quill_append"), 1⟩, ⟨.halt, 0⟩] }
    l.verify .optimized = [] ∧ l.execute.outputs = [utf8 "@quill_append"] ∧
      ∃ code, Unbuffered code ∧ l.lower {} = .ok (({} : AssemblyHeader).write ++ code) ∧
        Unbuffered (({} : AssemblyHeader).write ++ code) := by
  intro l
  have hverify : l.verify .optimized = [] := by decide
  obtain ⟨houtputs, code, hcode, hlower⟩ := (verify_decides l).2.2.2 hverify
  obtain ⟨hok, hwhole⟩ := hlower {}
  exact ⟨hverify, houtputs, code, hcode, hok, hwhole AssemblyHeader.unbuffered_default⟩

end Listing
end Linewise
