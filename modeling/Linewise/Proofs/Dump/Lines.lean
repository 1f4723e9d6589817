import Linewise.Dump
import Linewise.Proofs.Decimal
import Linewise.Proofs.Listing.Grammar
import Linewise.Proofs.Listing.Lines
/-!
Texts of printable lines. What a dump is put together from is printable, literals included, so the
line feeds of a dump are those that end its lines, and its lines are told apart.
-/
namespace Linewise

/-- Neither a control byte nor the delete byte. -/
def Byte.Printable (b : UInt8) : Prop := 0x20 ≤ b ∧ b ≠ 0x7F

instance : DecidablePred Byte.Printable :=
  fun b => inferInstanceAs (Decidable (0x20 ≤ b ∧ b ≠ 0x7F))

/-- All bytes are printable, so none of them is a line feed. -/
def Clean (s : Bytes) : Prop := ∀ b ∈ s, Byte.Printable b

-- The bytes of the text are tried, and not all bytes there are.
instance (s : Bytes) : Decidable (Clean s) := List.decidableBAll _ s

theorem Clean.lf_not_mem {s : Bytes} (h : Clean s) : Byte.lf ∉ s :=
  fun hlf => absurd (h _ hlf) (by decide)

@[simp] theorem clean_nil : Clean [] := by decide

@[simp] theorem clean_append (s t : Bytes) : Clean (s ++ t) ↔ Clean s ∧ Clean t :=
  List.forall_mem_append

theorem printable_of_between {low high b : UInt8} (hlow : low ≤ b) (hhigh : b ≤ high)
    (h : 0x20 ≤ low ∧ high < 0x7F) : Byte.Printable b :=
  ⟨UInt8.le_trans h.1 hlow, UInt8.ne_of_lt (UInt8.lt_of_le_of_lt hhigh h.2)⟩

theorem printable_of_isDigit {b : UInt8} (h : Byte.isDigit b = true) : Byte.Printable b := by
  simp only [Byte.isDigit, Bool.and_eq_true, decide_eq_true_eq] at h
  exact printable_of_between h.1 h.2 (by decide)

theorem HexDigit.printable {d : UInt8} {v : Nat} (h : HexDigit d v) : Byte.Printable d := by
  rcases h with ⟨hlow, hhigh, -⟩ | ⟨hlow, hhigh, -⟩ | ⟨hlow, hhigh, -⟩
  · exact printable_of_between hlow hhigh (by decide)
  · exact printable_of_between hlow hhigh (by decide)
  · exact printable_of_between hlow hhigh (by decide)

@[simp] theorem clean_ofNat (n : Nat) : Clean (Decimal.ofNat n) :=
  fun _ hb => printable_of_isDigit (Decimal.isDigit_of_mem_ofNat hb)

@[simp] theorem clean_ofWord (w : UInt32) : Clean (Decimal.ofWord w) := clean_ofNat _

namespace Literal

theorem clean_escapeByte (b : UInt8) : Clean (escapeByte b) := by
  unfold escapeByte
  split_ifs with hbackslash hquote hlf hcr htab hcontrol
  · decide
  · decide
  · decide
  · decide
  · decide
  · obtain ⟨hhigh, hlow⟩ := toNat_halves_lt b
    have hmark : Clean (utf8 "\\x") := by decide
    refine (clean_append _ _).mpr ⟨hmark, ?_⟩
    intro c hc
    simp only [Byte.lowerHex, List.mem_cons, List.not_mem_nil, or_false] at hc
    rcases hc with rfl | rfl
    · exact (HexDigit.lowerCase hhigh).printable
    · exact (HexDigit.lowerCase hlow).printable
  · rw [not_or, UInt8.not_lt] at hcontrol
    exact fun c hc => List.mem_singleton.mp hc ▸ hcontrol

/-- Whatever bytes a literal holds, what is written for it is printable. -/
@[simp] theorem clean_write (text : Bytes) : Clean (write text) := by
  have hbody : Clean (escape text) := by
    intro c hc
    obtain ⟨b, _, hb⟩ := List.mem_flatMap.mp hc
    exact clean_escapeByte b c hb
  have hquote : Clean [Byte.quote] := by decide
  exact (clean_append _ _).mpr ⟨(clean_append [_] _).mpr ⟨hquote, hbody⟩, hquote⟩

end Literal

@[simp] theorem Op.clean_write (op : Op) : Clean op.write := by
  have hwords : Clean (utf8 "append") ∧ Clean (utf8 "printlit") ∧ Clean (utf8 " ") := by decide
  cases op with
  | append text | printLiteral text => simp [write, literal?, word, hwords]
  | print | halt => decide

@[simp] theorem Kind.clean_name (k : Kind) : Clean k.name := by cases k <;> decide

/-- A text of lines. Below its heading lines, the first of which is empty, each entry is one line
with its line feed, and all bytes but the line feeds are printable. -/
structure LineByLine (text : Bytes) (headings : Nat) (entries : List Bytes) : Prop where
  lines : ∃ heads rows : List Bytes, text = (heads ++ rows).flatMap (· ++ [Byte.lf]) ∧
    heads.length = headings ∧ heads.head? = some [] ∧ rows.map (· ++ [Byte.lf]) = entries ∧
    ∀ line ∈ heads ++ rows, Byte.lf ∉ line
  printable : ∀ b ∈ text, b = Byte.lf ∨ Byte.Printable b

section
variable {heads heads' rows rows' : List Bytes}

theorem lineByLine_of_clean (hfirst : heads.head? = some [])
    (hclean : ∀ line ∈ heads ++ rows, Clean line) :
    LineByLine ((heads ++ rows).flatMap (· ++ [Byte.lf])) heads.length
      (rows.map (· ++ [Byte.lf])) where
  lines := ⟨heads, rows, rfl, rfl, hfirst, rfl, fun line hline => (hclean line hline).lf_not_mem⟩
  printable := by
    intro b hb
    obtain ⟨line, hline, hb⟩ := List.mem_flatMap.mp hb
    rcases List.mem_append.mp hb with hb | hb
    · exact .inr (hclean line hline b hb)
    · exact .inl (List.mem_singleton.mp hb)

/-- Texts of as many heading lines are told apart line by line. -/
theorem parts_inj_of_clean (hlength : heads.length = heads'.length)
    (h : ∀ line ∈ heads ++ rows, Clean line) (h' : ∀ line ∈ heads' ++ rows', Clean line)
    (heq : (heads ++ rows).flatMap (· ++ [Byte.lf]) = (heads' ++ rows').flatMap (· ++ [Byte.lf])) :
    heads = heads' ∧ rows = rows' := by
  have hlines := congrArg Newline.lfLines heq
  rw [Newline.lfLines_flatMap fun line hline => (h line hline).lf_not_mem,
    Newline.lfLines_flatMap fun line hline => (h' line hline).lf_not_mem] at hlines
  exact List.append_inj hlines hlength

end

/-! ### Rows of named values -/

/-- Values with their names, each after a space. -/
def fields (values : List (String × Bytes)) : Bytes :=
  values.flatMap fun f => utf8 " " ++ field f.1 f.2

theorem clean_fields {values : List (String × Bytes)}
    (h : ∀ f ∈ values, Clean (utf8 f.1) ∧ Clean f.2) : Clean (fields values) := by
  have hsigns : Clean (utf8 " ") ∧ Clean (utf8 "=") := by decide
  intro b hb
  obtain ⟨f, hf, hb⟩ := List.mem_flatMap.mp hb
  have hfield : Clean (utf8 " " ++ field f.1 f.2) := by simp [field, hsigns, h f hf]
  exact hfield b hb

/-- A number among named values ends at the space before the next one. -/
theorem fields_cons_inj {name : String} {v w : UInt32} {values values' : List (String × Bytes)}
    (h : fields ((name, Decimal.ofWord v) :: values) =
      fields ((name, Decimal.ofWord w) :: values')) : v = w ∧ fields values = fields values' := by
  have hend (values : List (String × Bytes)) : (fields values).takeWhile Byte.isDigit = [] := by
    cases values with
    | nil => rfl
    | cons f values => rfl
  have hname : utf8 " " ++ (utf8 name ++ (utf8 "=" ++ (Decimal.ofWord v ++ fields values))) =
      utf8 " " ++ (utf8 name ++ (utf8 "=" ++ (Decimal.ofWord w ++ fields values'))) := by
    simpa only [fields, List.flatMap_cons, field, List.append_assoc] using h
  exact Decimal.ofWord_append_inj (hend values) (hend values') (List.append_cancel_left
    (List.append_cancel_left (List.append_cancel_left hname)))

end Linewise
