import Linewise.Proofs.Assembly.Segments
/-!
The names of an assembly text, read from its lines alone. A line that starts with a name or a
keyword declares or defines a name for the whole text. From its opening line to its closing one a
routine binds names of its own, and what else it names it uses.
-/
namespace Linewise

namespace Byte

def percent : UInt8 := 0x25
def colon : UInt8 := 0x3A
def atSign : UInt8 := 0x40

/-- Names start with a sign that tells global from local ones. -/
def isSigil (b : UInt8) : Bool := b == atSign || b == percent

def isNameByte (b : UInt8) : Bool :=
  isDigit b || isLower b || (0x41 ≤ b && b ≤ 0x5A) || b == dot || b == underscore || b == minus ||
    b == 0x24

/-- Bytes that start neither a string nor a comment. -/
def isPlain (b : UInt8) : Bool := b != quote && b != semicolon

/-- Plain bytes that start no name. -/
def isQuiet (b : UInt8) : Bool := isPlain b && !isSigil b

theorem isQuiet_iff (b : UInt8) : isQuiet b = true ↔ isPlain b = true ∧ isSigil b = false := by
  rw [isQuiet, Bool.and_eq_true, Bool.not_eq_true']

theorem isQuiet_of_isNameByte {b : UInt8} (h : isNameByte b = true) : isQuiet b = true := by
  have hne {c : UInt8} (hc : isNameByte c = false) : b ≠ c := by
    rintro rfl
    rw [hc] at h
    cases h
  have hall : b ≠ quote ∧ b ≠ semicolon ∧ b ≠ atSign ∧ b ≠ percent :=
    ⟨hne (by decide), hne (by decide), hne (by decide), hne (by decide)⟩
  simp [isQuiet, isPlain, isSigil, hall]

theorem all_isPlain {s : Bytes} (h : s.all isQuiet = true) : s.all isPlain = true := by
  rw [List.all_eq_true] at h ⊢
  intro b hb
  exact ((isQuiet_iff b).mp (h b hb)).1

end Byte

/-- What stands outside of strings and before a comment. -/
def bare (quoted : Bool) : Bytes → Bytes
  | [] => []
  | b :: rest =>
    if b = Byte.quote then b :: bare (!quoted) rest
    else if quoted then bare true rest
    else if b = Byte.semicolon then []
    else b :: bare false rest

def namesIn : Bytes → List Bytes
  | [] => []
  | b :: rest =>
    if Byte.isSigil b then (b :: rest.takeWhile Byte.isNameByte) :: namesIn rest else namesIn rest

/-- The names in a line, each with its sign. -/
def names (line : Bytes) : List Bytes := namesIn (bare false line)

/-- Whether a line opens a routine. -/
def opens (line : Bytes) : Bool := (utf8 "define ").isPrefixOf line

/-- The name that a line declares or defines for the whole text. -/
def declared? (line : Bytes) : Option Bytes :=
  if line.head?.any Byte.isSigil || (utf8 "declare ").isPrefixOf line || opens line then
    (names line).head?
  else none

/-- The name that a line of a routine binds: a label, or what stands before an equals sign. -/
def bound? (line : Bytes) : Option Bytes :=
  if line.head?.any Byte.isNameByte && line.getLast? == some Byte.colon then
    some (Byte.percent :: line.dropLast)
  else if (line.dropWhile Byte.isBlank).head? = some Byte.percent then (names line).head?
  else none

/-- A routine: its name, its own names, which are its parameters, labels and results, and the names
that it uses but does not bind. -/
structure Routine where
  name : Bytes
  own : List Bytes
  free : List Bytes
  deriving DecidableEq

namespace Routine

def ofNames (name : Bytes) (own used : List Bytes) : Routine :=
  ⟨name, own, used.filter fun n => !own.contains n⟩

def ofLines (opening : Bytes) (body : List Bytes) : Routine :=
  ofNames ((names opening).headD []) ((names opening).tail ++ body.filterMap bound?)
    (body.flatMap names)

end Routine

/-- The routines that the lines of a text define, each up to the next closing line. -/
def routinesOf : List Bytes → List Routine
  | [] => []
  | line :: rest =>
    if opens line then
      .ofLines line (rest.takeWhile (· != AssemblyReading.closingLine)) :: routinesOf rest
    else routinesOf rest

/-- The names that a text declares or defines, and its routines. -/
structure AssemblyNames where
  declared : List Bytes
  routines : List Routine

namespace AssemblyNames

def ofText (text : Bytes) : AssemblyNames :=
  let lines := text.splitOn Byte.lf
  ⟨lines.filterMap declared?, routinesOf lines⟩

/-- The main function, and what a reached routine uses. -/
inductive Reached (m : AssemblyNames) : Routine → Prop where
  | main {r : Routine} : r ∈ m.routines → r.name = utf8 "@main" → Reached m r
  | used {r s : Routine} : Reached m r → s ∈ m.routines → s.name ∈ r.free → Reached m s

/-- The main function or a routine that it reaches uses the name. -/
def Uses (m : AssemblyNames) (name : Bytes) : Prop := ∃ r, m.Reached r ∧ name ∈ r.free

end AssemblyNames

/-! Reading names piece by piece. -/

theorem bare_append {front : Bytes} (h : front.all Byte.isPlain = true) (rest : Bytes) :
    bare false (front ++ rest) = front ++ bare false rest := by
  induction front with
  | nil => rfl
  | cons b front ih =>
      rw [List.all_cons, Bool.and_eq_true] at h
      obtain ⟨hquote, hsemicolon⟩ : b ≠ Byte.quote ∧ b ≠ Byte.semicolon := by
        simpa [Byte.isPlain] using h.1
      rw [List.cons_append, bare, if_neg hquote, if_neg (by decide), if_neg hsemicolon, ih h.2,
        List.cons_append]

theorem bare_eq_self {line : Bytes} (h : line.all Byte.isPlain = true) : bare false line = line := by
  have happend := bare_append h []
  rw [List.append_nil] at happend
  rw [happend, bare, List.append_nil]

/-- Nothing is taken from behind an element that stops it. -/
theorem takeWhile_append_cons {α : Type} {p : α → Bool} {b : α} (hb : p b = false) (s t : List α) :
    (s ++ b :: t).takeWhile p = s.takeWhile p := by
  rw [List.takeWhile_append, List.takeWhile_cons_of_neg (by simp [hb]), List.append_nil]
  split
  · exact ((List.takeWhile_prefix p).eq_of_length ‹_›).symm
  · rfl

/-- Names are read apart where a byte stands that is in none. -/
theorem namesIn_append {b : UInt8} (hb : Byte.isNameByte b = false) (s t : Bytes) :
    namesIn (s ++ b :: t) = namesIn s ++ namesIn (b :: t) := by
  induction s with
  | nil => rfl
  | cons c s ih =>
      rw [List.cons_append, namesIn, namesIn, ih, takeWhile_append_cons hb]
      split
      · rfl
      · rfl

theorem namesIn_eq_nil {s : Bytes} (h : s.all Byte.isQuiet = true) : namesIn s = [] := by
  induction s with
  | nil => rfl
  | cons b s ih =>
      rw [List.all_cons, Bool.and_eq_true] at h
      have hsigil := ((Byte.isQuiet_iff b).mp h.1).2
      rw [namesIn, if_neg (by simp [hsigil]), ih h.2]

/-- Every routine that these lines open they also close. -/
def whole : List Bytes → Bool
  | [] => true
  | line :: rest => (!opens line || rest.contains AssemblyReading.closingLine) && whole rest

theorem whole_append {lines lines' : List Bytes} (h : whole lines = true)
    (h' : whole lines' = true) : whole (lines ++ lines') = true := by
  induction lines with
  | nil => exact h'
  | cons line lines ih =>
      simp only [whole, Bool.and_eq_true, Bool.or_eq_true, List.contains_eq_mem,
        decide_eq_true_eq] at h
      simp only [List.cons_append, whole, Bool.and_eq_true, Bool.or_eq_true, List.contains_eq_mem,
        decide_eq_true_eq]
      exact ⟨h.1.imp_right (List.mem_append_left _), ih h.2⟩

theorem routinesOf_append {lines : List Bytes} (h : whole lines = true) (rest : List Bytes) :
    routinesOf (lines ++ rest) = routinesOf lines ++ routinesOf rest := by
  induction lines with
  | nil => rfl
  | cons line lines ih =>
      simp only [whole, Bool.and_eq_true, Bool.or_eq_true, Bool.not_eq_true',
        List.contains_eq_mem, decide_eq_true_eq] at h
      rw [List.cons_append, routinesOf, routinesOf, ih h.2]
      rcases h.1 with hopens | hclosed
      · rw [if_neg (by simp [hopens]), if_neg (by simp [hopens])]
      · -- The routine is closed before the rest begins.
        have hbody : (lines ++ rest).takeWhile (· != AssemblyReading.closingLine) =
            lines.takeWhile (· != AssemblyReading.closingLine) := by
          obtain ⟨front, back, rfl⟩ := List.append_of_mem hclosed
          rw [List.append_assoc, List.cons_append, takeWhile_append_cons (by simp),
            takeWhile_append_cons (by simp)]
        rw [hbody]
        split
        · rfl
        · rfl

/-- Lines that open no routine define none. -/
theorem whole_of_not_opens {lines : List Bytes} (h : ∀ line ∈ lines, opens line = false) :
    whole lines = true ∧ routinesOf lines = [] := by
  induction lines with
  | nil => exact ⟨rfl, rfl⟩
  | cons line lines ih =>
      rw [List.forall_mem_cons] at h
      obtain ⟨hwhole, hnone⟩ := ih h.2
      rw [whole, routinesOf, hwhole, hnone, h.1]
      exact ⟨rfl, rfl⟩

/-- Lines that declare or define these names and open and close these routines. -/
def Portion (text : Bytes) (declared : List Bytes) (routines : List Routine) : Prop :=
  ∃ lines : List Bytes, text = lines.flatMap (· ++ [Byte.lf]) ∧ (∀ line ∈ lines, Byte.lf ∉ line) ∧
    whole lines = true ∧ lines.filterMap declared? = declared ∧ routinesOf lines = routines

namespace Portion

variable {text text' : Bytes} {declared declared' : List Bytes} {routines routines' : List Routine}

theorem nil : Portion [] [] [] := ⟨[], rfl, by simp, rfl, rfl, rfl⟩

theorem append (h : Portion text declared routines) (h' : Portion text' declared' routines') :
    Portion (text ++ text') (declared ++ declared') (routines ++ routines') := by
  obtain ⟨lines, rfl, hlf, hwhole, rfl, rfl⟩ := h
  obtain ⟨lines', rfl, hlf', hwhole', rfl, rfl⟩ := h'
  refine ⟨lines ++ lines', by simp, ?_, whole_append hwhole hwhole', by simp,
    routinesOf_append hwhole lines'⟩
  intro line hline
  exact (List.mem_append.mp hline).elim (hlf line) (hlf' line)

theorem when (condition : Bool) (h : Portion text declared routines) :
    Portion (Bytes.when condition text) (if condition then declared else [])
      (if condition then routines else []) := by
  cases condition with
  | false => exact nil
  | true => exact h

theorem flatMap {α : Type} (xs : List α) {write : α → Bytes} {declared : α → List Bytes}
    (h : ∀ x ∈ xs, Portion (write x) (declared x) []) :
    Portion (xs.flatMap write) (xs.flatMap declared) [] := by
  induction xs with
  | nil => exact nil
  | cons x xs ih =>
      rw [List.forall_mem_cons] at h
      exact h.1.append (ih h.2)

theorem rows {rs : List String} (hlf : ∀ line ∈ rs.map utf8, Byte.lf ∉ line)
    (hwhole : whole (rs.map utf8) = true) (hdeclared : (rs.map utf8).filterMap declared? = declared)
    (hroutines : routinesOf (rs.map utf8) = routines) :
    Portion (Bytes.ofRows rs) declared routines :=
  ⟨rs.map utf8, by rw [Bytes.ofRows, List.flatMap_map], hlf, hwhole, hdeclared, hroutines⟩

end Portion

/-- A line inside of a routine. -/
def Inner (line : Bytes) : Prop :=
  Byte.lf ∉ line ∧ line ≠ AssemblyReading.closingLine ∧ opens line = false ∧ declared? line = none

instance (line : Bytes) : Decidable (Inner line) := inferInstanceAs (Decidable (_ ∧ _ ∧ _ ∧ _))

/-- Lines inside of a routine that bind and name these names. -/
def Inside (text : Bytes) (bound used : List Bytes) : Prop :=
  ∃ lines : List Bytes, text = lines.flatMap (· ++ [Byte.lf]) ∧ (∀ line ∈ lines, Inner line) ∧
    lines.filterMap bound? = bound ∧ lines.flatMap names = used

namespace Inside

variable {text text' : Bytes} {bound bound' used used' : List Bytes}

theorem nil : Inside [] [] [] := ⟨[], rfl, by simp, rfl, rfl⟩

theorem line {l : Bytes} (h : Inner l) : Inside (l ++ [Byte.lf]) (bound? l).toList (names l) := by
  refine ⟨[l], by simp, by simpa using h, ?_, by simp⟩
  cases hb : bound? l with
  | none => rw [List.filterMap_cons_none hb]; rfl
  | some b => rw [List.filterMap_cons_some hb]; rfl

theorem append (h : Inside text bound used) (h' : Inside text' bound' used') :
    Inside (text ++ text') (bound ++ bound') (used ++ used') := by
  obtain ⟨lines, rfl, hlines, rfl, rfl⟩ := h
  obtain ⟨lines', rfl, hlines', rfl, rfl⟩ := h'
  refine ⟨lines ++ lines', by simp, ?_, by simp, by simp⟩
  intro line hline
  exact (List.mem_append.mp hline).elim (hlines line) (hlines' line)

theorem when (condition : Bool) (h : Inside text bound used) :
    Inside (Bytes.when condition text) (if condition then bound else [])
      (if condition then used else []) := by
  cases condition with
  | false => exact nil
  | true => exact h

theorem flatMap {α : Type} (xs : List α) {write : α → Bytes} {bound used : α → List Bytes}
    (h : ∀ x ∈ xs, Inside (write x) (bound x) (used x)) :
    Inside (xs.flatMap write) (xs.flatMap bound) (xs.flatMap used) := by
  induction xs with
  | nil => exact nil
  | cons x xs ih =>
      rw [List.forall_mem_cons] at h
      exact h.1.append (ih h.2)

theorem rows {rs : List String} (hinner : ∀ line ∈ rs.map utf8, Inner line)
    (hbound : (rs.map utf8).filterMap bound? = bound)
    (hused : (rs.map utf8).flatMap names = used) : Inside (Bytes.ofRows rs) bound used :=
  ⟨rs.map utf8, by rw [Bytes.ofRows, List.flatMap_map], hinner, hbound, hused⟩

end Inside

/-- A routine is made of its opening line, the lines inside of it and its closing line. -/
theorem Portion.routine {opening text : Bytes} {bound used : List Bytes}
    (hopens : opens opening = true) (hlf : Byte.lf ∉ opening) (h : Inside text bound used)
    {name : Bytes} {parameters : List Bytes} (hnames : names opening = name :: parameters) :
    Portion (opening ++ [Byte.lf] ++ (text ++ (AssemblyReading.closingLine ++ [Byte.lf]))) [name]
      [.ofNames name (parameters ++ bound) used] := by
  obtain ⟨lines, rfl, hlines, rfl, rfl⟩ := h
  have hclosing : Byte.lf ∉ AssemblyReading.closingLine ∧
      opens AssemblyReading.closingLine = false ∧
      declared? AssemblyReading.closingLine = none := by decide
  have hbody : ∀ line ∈ lines, (line != AssemblyReading.closingLine) = true := by
    intro line hline
    simpa using (hlines line hline).2.1
  have hrest : ∀ line ∈ lines ++ [AssemblyReading.closingLine], opens line = false := by
    intro line hline
    rcases List.mem_append.mp hline with h | h
    · exact (hlines line h).2.2.1
    · rw [List.mem_singleton.mp h]
      exact hclosing.2.1
  obtain ⟨hwhole, hnone⟩ := whole_of_not_opens hrest
  refine ⟨opening :: (lines ++ [AssemblyReading.closingLine]), by simp, ?_, ?_, ?_, ?_⟩
  · intro line hline
    simp only [List.mem_cons, List.mem_append, List.not_mem_nil, or_false] at hline
    rcases hline with rfl | hline | rfl
    · exact hlf
    · exact (hlines line hline).1
    · exact hclosing.1
  · rw [whole, hwhole]
    simp
  · have hopening : declared? opening = some name := by
      rw [declared?, hopens, Bool.or_true, if_pos rfl, hnames]
      rfl
    have hinside : lines.filterMap declared? = [] :=
      List.filterMap_eq_nil_iff.mpr fun line hline => (hlines line hline).2.2.2
    rw [List.filterMap_cons_some hopening, List.filterMap_append, hinside,
      List.filterMap_cons_none hclosing.2.2]
    rfl
  · rw [routinesOf, if_pos hopens, hnone, List.takeWhile_append_of_pos hbody,
      List.takeWhile_cons_of_neg (by simp), List.append_nil, Routine.ofLines, hnames]
    rfl

/-- The names of a text that is such a portion. -/
theorem AssemblyNames.ofText_of_portion {text : Bytes} {declared : List Bytes}
    {routines : List Routine} (h : Portion text declared routines) :
    ofText text = ⟨declared, routines⟩ := by
  obtain ⟨lines, rfl, hlf, hwhole, rfl, rfl⟩ := h
  have hempty : declared? [] = none ∧ routinesOf [[]] = [] := by decide
  rw [ofText, Newline.splitOn_flatMap hlf]
  simp only [List.filterMap_append, List.filterMap_cons_none hempty.1, List.filterMap_nil,
    List.append_nil, routinesOf_append hwhole, hempty.2]

end Linewise
