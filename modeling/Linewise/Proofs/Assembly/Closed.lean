import Linewise.Proofs.Assembly.Portions
import Linewise.Proofs.Assembly.Running
import Mathlib.Data.List.Nodup
/-!
A lowered text is closed and minimal. The main function reaches every routine that is there, so
what is declared is what is used, and nothing is declared twice. Literals share a constant exactly
if they are equal.
-/
namespace Linewise

/-- What is declared is what is needed, and no name is given twice. -/
structure AssemblyNames.Closed (m : AssemblyNames) : Prop where
  once : m.declared.Nodup
  own_once : ∀ r ∈ m.routines, r.own.Nodup
  needed : ∀ name, name ∈ m.declared ↔ name = utf8 "@main" ∨ m.Uses name

/-- Whether a name is the reference of a literal's constant. -/
def refersToText (name : Bytes) : Bool := (utf8 "@.quill_text.").isPrefixOf name

def Routine.isMain (r : Routine) : Bool := r.name == utf8 "@main"

/-- The constants of literals that the main function refers to, as often and in the order in which
it does. -/
def AssemblyNames.references (m : AssemblyNames) : List Bytes :=
  (m.routines.filter Routine.isMain).flatMap fun r => r.free.filter refersToText

theorem nodup_eraseDups {α : Type} [BEq α] [LawfulBEq α] (l : List α) : l.eraseDups.Nodup := by
  induction hn : l.length using Nat.strongRecOn generalizing l with
  | ind n ih =>
      cases l with
      | nil => simp
      | cons a l =>
          rw [List.eraseDups_cons, List.nodup_cons]
          refine ⟨by simp [List.mem_eraseDups], ih _ ?_ _ rfl⟩
          rw [← hn, List.length_cons]
          exact Nat.lt_succ_of_le (List.length_filter_le _ l)

namespace Assembly

theorem reference_injective : Function.Injective reference := by
  intro i j h
  exact symbol_injective (List.cons.inj h).2

variable (a : Assembly)

/-! Each question about an assembly asks for calls of some kind. -/

theorem appends_iff : a.appends = true ↔ ∃ text, Call.append text ∈ a.calls := by
  rw [appends, List.any_eq_true]
  constructor
  · rintro ⟨call, hcall, happends⟩
    cases call with
    | append text => exact ⟨text, hcall⟩
    | printBuffer | writeLine text => cases happends
  · rintro ⟨text, hcall⟩
    exact ⟨_, hcall, rfl⟩

theorem printsBuffer_iff : a.printsBuffer = true ↔ Call.printBuffer ∈ a.calls := by
  rw [printsBuffer, List.any_eq_true]
  constructor
  · rintro ⟨call, hcall, hprints⟩
    cases call with
    | printBuffer => exact hcall
    | append text | writeLine text => cases hprints
  · intro hcall
    exact ⟨_, hcall, rfl⟩

theorem writes_iff :
    a.writes = true ↔ Call.printBuffer ∈ a.calls ∨ ∃ text, Call.writeLine text ∈ a.calls := by
  rw [writes, List.any_eq_true]
  constructor
  · rintro ⟨call, hcall, hwrites⟩
    cases call with
    | append text => cases hwrites
    | printBuffer => exact .inl hcall
    | writeLine text => exact .inr ⟨text, hcall⟩
  · rintro (hcall | ⟨text, hcall⟩)
    · exact ⟨_, hcall, rfl⟩
    · exact ⟨_, hcall, rfl⟩

theorem hasBuffer_iff : a.hasBuffer = true ↔ a.appends = true ∨ a.printsBuffer = true := by
  rw [hasBuffer, Bool.or_eq_true]

/-- The references that are declared are those of the literals. -/
theorem mem_references_iff (name : Bytes) :
    name ∈ (List.range a.constants.length).map reference ↔
      ∃ call ∈ a.calls, ∃ literal, call.literal? = some literal ∧
        name = reference (a.constants.idxOf literal) := by
  have hnodup : a.constants.Nodup := nodup_eraseDups _
  rw [List.mem_map]
  constructor
  · rintro ⟨i, hi, rfl⟩
    rw [List.mem_range] at hi
    have hmem : a.constants[i] ∈ a.calls.filterMap (·.literal?) :=
      List.mem_eraseDups.mp (List.getElem_mem hi)
    obtain ⟨call, hcall, hliteral⟩ := List.mem_filterMap.mp hmem
    exact ⟨call, hcall, _, hliteral, by rw [hnodup.idxOf_getElem]⟩
  · rintro ⟨call, hcall, literal, hliteral, rfl⟩
    have hmem := definedIn_constants hcall literal hliteral
    exact ⟨_, List.mem_range.mpr (List.idxOf_lt_length_of_mem hmem), rfl⟩

/-- Of the names in a call the buffer is the main function's own. -/
theorem filter_callNames {own : List Bytes} (hlocal : ∀ n ∈ own, n.head? = some Byte.percent)
    {call : Call} (hbuffer : (call.appends || call.printsBuffer) = true → utf8 "%buf" ∈ own)
    (constants : List Bytes) :
    ((callNames constants call).filter fun n => !own.contains n) = globals constants call := by
  have hglobal : ∀ rest : Bytes, Byte.atSign :: rest ∉ own := by
    intro rest hmem
    have hhead : some Byte.atSign = some Byte.percent := hlocal _ hmem
    exact absurd hhead (by decide)
  cases call with
  | append text =>
      have hname : utf8 "@quill_append" ∉ own := hglobal (utf8 "quill_append")
      simp [callNames, globals, reference, hname, hglobal, hbuffer rfl]
  | printBuffer =>
      have hname : utf8 "@quill_print_current" ∉ own := hglobal (utf8 "quill_print_current")
      simp [callNames, globals, hname, hbuffer rfl]
  | writeLine text =>
      have hname : utf8 "@quill_write_line" ∉ own := hglobal (utf8 "quill_write_line")
      simp [callNames, globals, reference, hname, hglobal]

theorem mainOwn_sublist :
    a.mainOwn.Sublist (["%entry", "%buf", "%final.data.p", "%final.data"].map utf8) := by
  rw [mainOwn]
  cases a.hasBuffer with
  | false => decide
  | true => decide +kernel

theorem free_mainRoutine :
    a.mainRoutine.free =
      (if a.hasBuffer then ["%quill.buf", "%quill.buf"].map utf8 else []) ++
        a.calls.flatMap (globals a.constants) ++
        if a.hasBuffer then ["%quill.buf", "@free"].map utf8 else [] := by
  have hlocal : ∀ n ∈ a.mainOwn, n.head? = some Byte.percent := by
    intro n hn
    exact (by decide +kernel : ∀ n ∈ ["%entry", "%buf", "%final.data.p", "%final.data"].map utf8,
      n.head? = some Byte.percent) n (a.mainOwn_sublist.subset hn)
  have hcalls : (a.calls.flatMap (callNames a.constants)).filter (fun n => !a.mainOwn.contains n) =
      a.calls.flatMap (globals a.constants) := by
    rw [List.filter_flatMap]
    refine List.flatMap_congr fun call hcall => filter_callNames hlocal ?_ _
    intro htouches
    have hbuffer : a.hasBuffer = true := by
      rw [hasBuffer, appends, printsBuffer, Bool.or_eq_true, List.any_eq_true, List.any_eq_true]
      exact (Bool.or_eq_true _ _ ▸ htouches).imp (⟨call, hcall, ·⟩) (⟨call, hcall, ·⟩)
    simp [mainOwn, hbuffer]
  change a.mainUsed.filter (fun n => !a.mainOwn.contains n) = _
  rw [mainUsed, List.filter_append, List.filter_append, hcalls]
  cases hB : a.hasBuffer with
  | false => rfl
  | true =>
      have hfixed :
          ((["%buf", "%quill.buf", "%quill.buf", "%buf"].map utf8).filter
              fun n => !a.mainOwn.contains n) = ["%quill.buf", "%quill.buf"].map utf8 ∧
            ((["%final.data.p", "%quill.buf", "%buf", "%final.data", "%final.data.p", "@free",
              "%final.data"].map utf8).filter fun n => !a.mainOwn.contains n) =
                ["%quill.buf", "@free"].map utf8 := by
        rw [mainOwn, hB]
        decide +kernel
      simp only [if_true, hfixed]

theorem mem_free_mainRoutine {call : Call} (hcall : call ∈ a.calls) {name : Bytes}
    (hname : name ∈ globals a.constants call) : name ∈ a.mainRoutine.free := by
  rw [free_mainRoutine]
  exact List.mem_append_left _ (List.mem_append_right _ (List.mem_flatMap.mpr ⟨call, hcall, hname⟩))

/-- The names of an assembly's text. -/
def nameTable : AssemblyNames := ⟨a.declarations, a.routines⟩

theorem mem_routines_iff (r : Routine) :
    r ∈ a.routines ↔ (a.writes = true ∧ r = writeLineRoutine) ∨
      (a.appends = true ∧ r = appendRoutine) ∨
      (a.printsBuffer = true ∧ r = printBufferRoutine) ∨ r = a.mainRoutine := by
  simp only [routines, List.mem_append, List.mem_ite_nil_right, List.mem_singleton, or_assoc]

/-- No routine is there that the main function does not reach. -/
theorem reached_of_mem {r : Routine} (hr : r ∈ a.routines) : a.nameTable.Reached r := by
  have hmem : a.mainRoutine ∈ a.routines := (a.mem_routines_iff _).mpr (.inr (.inr (.inr rfl)))
  have main : a.nameTable.Reached a.mainRoutine := .main hmem rfl
  have called {call : Call} (hcall : call ∈ a.calls) {s : Routine} (hs : s ∈ a.routines)
      (hname : s.name ∈ globals a.constants call) : a.nameTable.Reached s :=
    .used main hs (a.mem_free_mainRoutine hcall hname)
  have printing (hprint : Call.printBuffer ∈ a.calls) : a.nameTable.Reached printBufferRoutine :=
    called hprint
      ((a.mem_routines_iff _).mpr (.inr (.inr (.inl ⟨a.printsBuffer_iff.mpr hprint, rfl⟩))))
      List.mem_cons_self
  rcases (a.mem_routines_iff r).mp hr with ⟨hwrites, rfl⟩ | ⟨happends, rfl⟩ | ⟨hprints, rfl⟩ | rfl
  · rcases a.writes_iff.mp hwrites with hprint | ⟨text, hcall⟩
    · -- The routine that writes the buffer writes it as a line.
      exact .used (printing hprint) hr (by decide +kernel)
    · exact called hcall hr List.mem_cons_self
  · obtain ⟨text, hcall⟩ := a.appends_iff.mp happends
    exact called hcall hr List.mem_cons_self
  · exact printing (a.printsBuffer_iff.mp hprints)
  · exact main

theorem uses_iff (name : Bytes) : a.nameTable.Uses name ↔ ∃ r ∈ a.routines, name ∈ r.free := by
  constructor
  · rintro ⟨r, hreached, hname⟩
    refine ⟨r, ?_, hname⟩
    cases hreached with
    | main hr _ => exact hr
    | used _ hr _ => exact hr
  · rintro ⟨r, hr, hname⟩
    exact ⟨r, a.reached_of_mem hr, hname⟩

/-- The declarations by the questions that decide whether they are there. -/
theorem mem_declarations_iff (name : Bytes) :
    name ∈ a.declarations ↔ (a.hasBuffer = true ∧ name ∈ ["%quill.buf", "@free"].map utf8) ∨
      name ∈ (List.range a.constants.length).map reference ∨
      (a.writes = true ∧ name ∈ ["@.quill_newline", "@write", "@quill_write_line"].map utf8) ∨
      (a.appends = true ∧ name ∈ ["@realloc", "@memcpy", "@abort", "@quill_append"].map utf8) ∨
      (a.printsBuffer = true ∧ name = utf8 "@quill_print_current") ∨ name = utf8 "@main" := by
  simp only [declarations, List.mem_append, List.mem_ite_nil_right, List.mem_cons,
    List.not_mem_nil, or_false, List.map_cons, List.map_nil, and_or_left]
  simp only [or_assoc, or_comm, or_left_comm]

/-- What a routine uses is declared. -/
theorem mem_declarations_of_free {r : Routine} (hr : r ∈ a.routines) {name : Bytes}
    (hname : name ∈ r.free) : name ∈ a.declarations := by
  rw [mem_declarations_iff]
  rcases (a.mem_routines_iff r).mp hr with ⟨hwrites, rfl⟩ | ⟨happends, rfl⟩ | ⟨hprints, rfl⟩ | rfl
  · have hfree : writeLineRoutine.free ⊆
        ["@.quill_newline", "@write", "@quill_write_line"].map utf8 := by simp [writeLineRoutine]
    exact .inr (.inr (.inl ⟨hwrites, hfree hname⟩))
  · have hbuffer := a.hasBuffer_iff.mpr (.inl happends)
    simp only [appendRoutine, List.map_cons, List.map_nil, List.mem_cons, List.not_mem_nil,
      or_false] at hname
    rcases hname with rfl | rfl | rfl | rfl | rfl
    · simp [hbuffer]
    · simp [hbuffer]
    · simp [happends]
    · simp [happends]
    · simp [happends]
  · have hbuffer := a.hasBuffer_iff.mpr (.inr hprints)
    have hwrites := a.writes_iff.mpr (.inl (a.printsBuffer_iff.mp hprints))
    simp only [printBufferRoutine, List.map_cons, List.map_nil, List.mem_cons, List.not_mem_nil,
      or_false] at hname
    rcases hname with rfl | rfl | rfl
    · simp [hbuffer]
    · simp [hbuffer]
    · simp [hwrites]
  · rw [free_mainRoutine] at hname
    simp only [List.mem_append, List.mem_ite_nil_right, List.mem_flatMap] at hname
    rcases hname with (⟨hbuffer, hname⟩ | ⟨call, hcall, hname⟩) | ⟨hbuffer, hname⟩
    · have hfree : ["%quill.buf", "%quill.buf"].map utf8 ⊆ ["%quill.buf", "@free"].map utf8 := by
        simp
      exact .inl ⟨hbuffer, hfree hname⟩
    · -- A call uses its helper, and its reference if it has a literal.
      have hreference {literal : Bytes} (hliteral : call.literal? = some literal)
          (heq : name = reference (a.constants.idxOf literal)) :
          name ∈ (List.range a.constants.length).map reference :=
        (a.mem_references_iff name).mpr ⟨call, hcall, literal, hliteral, heq⟩
      cases call with
      | append text =>
          have happends := a.appends_iff.mpr ⟨text, hcall⟩
          simp only [globals, List.mem_cons, List.not_mem_nil, or_false] at hname
          rcases hname with rfl | heq
          · simp [happends]
          · exact .inr (.inl (hreference rfl heq))
      | printBuffer =>
          have hprints := a.printsBuffer_iff.mpr hcall
          rw [globals, List.mem_singleton] at hname
          simp [hprints, hname]
      | writeLine text =>
          have hwrites := a.writes_iff.mpr (.inr ⟨text, hcall⟩)
          simp only [globals, List.mem_cons, List.not_mem_nil, or_false] at hname
          rcases hname with rfl | heq
          · simp [hwrites]
          · exact .inr (.inl (hreference rfl heq))
    · exact .inl ⟨hbuffer, hname⟩

/-- What is declared is the main function or used by a routine. -/
theorem exists_free_of_mem_declarations {name : Bytes} (h : name ∈ a.declarations) :
    name = utf8 "@main" ∨ ∃ r ∈ a.routines, name ∈ r.free := by
  have hmain : a.mainRoutine ∈ a.routines := (a.mem_routines_iff _).mpr (.inr (.inr (.inr rfl)))
  have called {call : Call} (hcall : call ∈ a.calls) (hname : name ∈ globals a.constants call) :
      name = utf8 "@main" ∨ ∃ r ∈ a.routines, name ∈ r.free :=
    .inr ⟨_, hmain, a.mem_free_mainRoutine hcall hname⟩
  rcases (a.mem_declarations_iff name).mp h with
    ⟨hbuffer, hname⟩ | hname | ⟨hwrites, hname⟩ | ⟨happends, hname⟩ | ⟨hprints, hname⟩ | hname
  · refine .inr ⟨_, hmain, ?_⟩
    rw [free_mainRoutine, hbuffer, if_pos rfl, if_pos rfl]
    exact List.mem_append_right _ hname
  · obtain ⟨call, hcall, literal, hliteral, heq⟩ := (a.mem_references_iff name).mp hname
    refine called hcall ?_
    cases call with
    | append text | writeLine text =>
        obtain rfl := Option.some.inj hliteral
        simp [globals, heq]
    | printBuffer => cases hliteral
  · simp only [List.map_cons, List.map_nil, List.mem_cons, List.not_mem_nil, or_false] at hname
    have hroutine := (a.mem_routines_iff _).mpr (.inl ⟨hwrites, rfl⟩)
    rcases hname with rfl | rfl | rfl
    · exact .inr ⟨_, hroutine, by simp [writeLineRoutine]⟩
    · exact .inr ⟨_, hroutine, by simp [writeLineRoutine]⟩
    · rcases a.writes_iff.mp hwrites with hprint | ⟨text, hcall⟩
      · have hprints := a.printsBuffer_iff.mpr hprint
        exact .inr ⟨_, (a.mem_routines_iff _).mpr (.inr (.inr (.inl ⟨hprints, rfl⟩))),
          by simp [printBufferRoutine]⟩
      · exact called hcall List.mem_cons_self
  · simp only [List.map_cons, List.map_nil, List.mem_cons, List.not_mem_nil, or_false] at hname
    have hroutine := (a.mem_routines_iff _).mpr (.inr (.inl ⟨happends, rfl⟩))
    rcases hname with rfl | rfl | rfl | rfl
    · exact .inr ⟨_, hroutine, by simp [appendRoutine]⟩
    · exact .inr ⟨_, hroutine, by simp [appendRoutine]⟩
    · exact .inr ⟨_, hroutine, by simp [appendRoutine]⟩
    · obtain ⟨text, hcall⟩ := a.appends_iff.mp happends
      exact called hcall List.mem_cons_self
  · exact called (a.printsBuffer_iff.mp hprints) (by simp [globals, hname])
  · exact .inl hname

theorem needed_iff (name : Bytes) :
    name ∈ a.declarations ↔ name = utf8 "@main" ∨ a.nameTable.Uses name := by
  rw [uses_iff]
  constructor
  · exact a.exists_free_of_mem_declarations
  · rintro (rfl | ⟨r, hr, hname⟩)
    · simp [mem_declarations_iff]
    · exact a.mem_declarations_of_free hr hname

theorem refersToText_reference (index : Nat) : refersToText (reference index) = true := by
  have hname : reference index = utf8 "@.quill_text." ++ Decimal.ofNat index := by
    rw [reference, symbol, ← List.cons_append]
    congr 1
  rw [refersToText, hname, List.isPrefixOf_iff_prefix]
  exact List.prefix_append _ _

/-- Whatever is left out, the names that can be declared are different names. -/
theorem nodup_declarations : a.declarations.Nodup := by
  let front := [utf8 "%quill.buf"]
  let back := [utf8 "@.quill_newline"] ++ ([utf8 "@write"] ++
    ([utf8 "@realloc", utf8 "@memcpy", utf8 "@abort"] ++ ([utf8 "@free"] ++
      ([utf8 "@quill_write_line"] ++ ([utf8 "@quill_append"] ++
        ([utf8 "@quill_print_current"] ++ [utf8 "@main"]))))))
  have hfixed : (front ++ back).Nodup ∧ ∀ name ∈ front ++ back, refersToText name = false := by
    decide +kernel
  have hreferences : ((List.range a.constants.length).map reference).Nodup :=
    List.Nodup.map reference_injective List.nodup_range
  have hall : (front ++ ((List.range a.constants.length).map reference ++ back)).Nodup := by
    refine (List.perm_append_comm_assoc _ front back).nodup
      (List.nodup_append.mpr ⟨hreferences, hfixed.1, ?_⟩)
    rintro name hname _ hother rfl
    obtain ⟨i, _, rfl⟩ := List.mem_map.mp hname
    exact absurd (refersToText_reference i) (by simp [hfixed.2 _ hother])
  have hite (condition : Bool) (l : List Bytes) : (if condition then l else []).Sublist l := by
    cases condition with
    | false => exact List.nil_sublist l
    | true => exact List.Sublist.refl l
  refine List.Nodup.sublist ?_ hall
  simp only [declarations, List.append_assoc]
  exact (hite _ _).append ((List.Sublist.refl _).append ((hite _ _).append ((hite _ _).append
    ((hite _ _).append ((hite _ _).append ((hite _ _).append ((hite _ _).append
      ((hite _ _).append (List.Sublist.refl _)))))))))

theorem own_nodup {r : Routine} (hr : r ∈ a.routines) : r.own.Nodup := by
  rcases (a.mem_routines_iff r).mp hr with ⟨_, rfl⟩ | ⟨_, rfl⟩ | ⟨_, rfl⟩ | rfl
  · decide +kernel
  · decide +kernel
  · decide +kernel
  · exact List.Nodup.sublist a.mainOwn_sublist (by decide +kernel)

theorem closed_nameTable : a.nameTable.Closed where
  once := a.nodup_declarations
  own_once _ hr := a.own_nodup hr
  needed := a.needed_iff

/-- Of the globals of a call its reference is the only one that refers to a literal's constant. -/
theorem filter_globals (constants : List Bytes) (call : Call) :
    (globals constants call).filter refersToText =
      (call.literal?.map fun literal => reference (constants.idxOf literal)).toList := by
  have hhelpers : ∀ name ∈ ["@quill_append", "@quill_print_current", "@quill_write_line"].map utf8,
      ¬ refersToText name = true := by decide +kernel
  cases call with
  | append text =>
      rw [globals, List.filter_cons_of_neg (hhelpers _ (by simp)),
        List.filter_cons_of_pos (refersToText_reference _)]
      rfl
  | printBuffer =>
      rw [globals, List.filter_cons_of_neg (hhelpers _ (by simp))]
      rfl
  | writeLine text =>
      rw [globals, List.filter_cons_of_neg (hhelpers _ (by simp)),
        List.filter_cons_of_pos (refersToText_reference _)]
      rfl

/-- The main function refers to the constants of the literals, one after the other. -/
theorem references_nameTable :
    a.nameTable.references =
      (a.calls.filterMap (·.literal?)).map fun literal =>
        reference (a.constants.idxOf literal) := by
  have hother (condition : Bool) {r : Routine} (hr : r.isMain = false) :
      (if condition then [r] else []).filter Routine.isMain = [] := by
    cases condition with
    | false => rfl
    | true => exact List.filter_cons_of_neg (by simp [hr])
  have hname : a.mainRoutine.isMain = true := beq_self_eq_true _
  have hmain : a.routines.filter Routine.isMain = [a.mainRoutine] := by
    rw [routines, List.filter_append, List.filter_append, List.filter_append,
      hother _ (by decide +kernel), hother _ (by decide +kernel), hother _ (by decide +kernel),
      List.filter_cons_of_pos hname]
    rfl
  have hfixed (condition : Bool) {l : List Bytes} (hl : l.filter refersToText = []) :
      (if condition then l else []).filter refersToText = [] := by
    cases condition with
    | false => rfl
    | true => exact hl
  rw [AssemblyNames.references]
  change (a.routines.filter Routine.isMain).flatMap _ = _
  rw [hmain, List.flatMap_singleton, free_mainRoutine, List.filter_append, List.filter_append,
    hfixed _ (by decide +kernel), hfixed _ (by decide +kernel), List.filter_flatMap,
    List.map_filterMap, List.filterMap_eq_flatMap_toList, List.nil_append, List.append_nil]
  exact List.flatMap_congr fun call _ => filter_globals _ call

end Assembly

/-- The literal that an instruction refers to; appending nothing refers to none. -/
def Op.referred? : Op → Option Bytes
  | .append text => if text.isEmpty then none else some text
  | .printLiteral text => some text
  | .print | .halt => none

namespace Listing

/-- The literals of the instructions before the first halt, as often and in the order in which they
are there. -/
def literals (l : Listing) : List Bytes := l.live.filterMap (·.op.referred?)

theorem literals_calls (l : Listing) :
    (Assembly.ofListing l).calls.filterMap (·.literal?) = l.literals := by
  have hop (op : Op) : (Call.ofOp? op).bind (·.literal?) = op.referred? := by
    cases op with
    | append text =>
        cases text with
        | nil => rfl
        | cons b text => rfl
    | print | printLiteral text | halt => rfl
  rw [Assembly.calls, Assembly.ofListing, List.filterMap_map, List.filterMap_filterMap, literals]
  congr 1
  funext i
  exact hop i.op

/-- The reference names a constant of the text that holds the literal. -/
def Holds (text reference literal : Bytes) : Prop :=
  ∃ name c, reference = Byte.atSign :: name ∧
    (AssemblyReading.ofText text).constant? name = some c ∧ c.bytes = literal

/-- Lowering a well-formed listing gives a closed and minimal text. The main function refers to a
constant for each literal in turn, and to the same one exactly if the literals are equal. -/
theorem lower_closed {l : Listing} (hl : l.verify l.strictness = []) :
    ∃ text, l.lower {} = .ok text ∧ (AssemblyNames.ofText text).Closed ∧
      List.Forall₂ (Holds text) (AssemblyNames.ofText text).references l.literals ∧
      ∀ i j, i < l.literals.length → j < l.literals.length →
        ((AssemblyNames.ofText text).references[i]? = (AssemblyNames.ofText text).references[j]? ↔
          l.literals[i]? = l.literals[j]?) := by
  let a := Assembly.ofListing l
  have htext : l.lower {} = .ok (({} : AssemblyHeader).write ++ a.code) := by
    simp [lower, hl, a]
  have hnames : AssemblyNames.ofText (({} : AssemblyHeader).write ++ a.code) = a.nameTable :=
    a.names_code
  have hreferences := a.references_nameTable
  have hmem : ∀ literal ∈ l.literals, literal ∈ a.constants := by
    intro literal hliteral
    rw [← literals_calls] at hliteral
    exact List.mem_eraseDups.mpr hliteral
  rw [literals_calls] at hreferences
  refine ⟨_, htext, ?_, ?_, ?_⟩
  · rw [hnames]
    exact a.closed_nameTable
  · rw [hnames, hreferences, List.forall₂_map_left_iff, List.forall₂_same]
    intro literal hliteral
    have hconstants : (AssemblyReading.ofText (({} : AssemblyHeader).write ++ a.code)).constants =
        Assembly.table a.constants := by rw [Assembly.ofText_code]
    exact ⟨_, _, rfl, Assembly.constant?_symbol hconstants (hmem literal hliteral), rfl⟩
  · intro i j hi hj
    rw [hnames, hreferences, List.getElem?_map, List.getElem?_map, List.getElem?_eq_getElem hi,
      List.getElem?_eq_getElem hj, Option.map_some, Option.map_some, Option.some.injEq,
      Option.some.injEq, Assembly.reference_injective.eq_iff,
      List.idxOf_inj (hmem _ (List.getElem_mem hi))]

/-- The literal looks like a string that ends, a comment and a name. -/
theorem lower_closed_of_repeated_literal :
    let literal := utf8 "\";@main\n"
    let l : Listing := ⟨[⟨.append literal, 1⟩, ⟨.append [], 2⟩, ⟨.print, 3⟩,
      ⟨.printLiteral literal, 0⟩, ⟨.halt, 0⟩], false, {}⟩
    l.verify l.strictness = [] ∧ ∃ text, l.lower {} = .ok text ∧
      (AssemblyNames.ofText text).Closed ∧ (AssemblyNames.ofText text).references.length = 2 ∧
      (AssemblyNames.ofText text).references[0]? = (AssemblyNames.ofText text).references[1]? := by
  intro literal l
  have hl : l.verify l.strictness = [] := by decide
  obtain ⟨text, htext, hclosed, hholds, hshared⟩ := lower_closed hl
  refine ⟨hl, text, htext, hclosed, hholds.length_eq, ?_⟩
  exact (hshared 0 1 (by decide) (by decide)).mpr rfl

end Listing
end Linewise
