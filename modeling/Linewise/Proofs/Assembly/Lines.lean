import Linewise.Proofs.Assembly.Reading
import Linewise.Proofs.Listing.Lines
import Linewise.Proofs.Listing.Literal
/-!
The lines of a lowered text, one kind at a time. What is written for a constant or for a call is
read back as that constant or that call.
-/
namespace Linewise

@[simp] theorem dropPrefix?_append (p s : Bytes) : (p ++ s).dropPrefix? p = some s :=
  List.dropPrefix?_append_of_beq s (beq_self_eq_true p)

theorem unescape_cons_of_ne {b : UInt8} (h : b ≠ Byte.backslash) (s : Bytes) :
    unescape (b :: s) = b :: unescape s := by
  match s with
  | [] => rfl
  | [c] => rfl
  | c :: d :: rest => rw [unescape, if_neg h]

theorem unescape_hex {h₁ h₂ v₁ v₂ : UInt8} (hv₁ : Byte.hexValue? h₁ = some v₁)
    (hv₂ : Byte.hexValue? h₂ = some v₂) (s : Bytes) :
    unescape (Byte.backslash :: h₁ :: h₂ :: s) = (v₁ * 16 + v₂) :: unescape s := by
  rw [unescape, if_pos rfl, hv₁, hv₂]

namespace Assembly

/-- An escaped byte is the byte itself, or a backslash and two digits with its value. -/
theorem escapeByte_cases (b : UInt8) :
    (escapeByte b = [b] ∧ b ≠ Byte.lf ∧ b ≠ Byte.quote ∧ b ≠ Byte.backslash) ∨
      ∃ h₁ h₂ v₁ v₂, escapeByte b = [Byte.backslash, h₁, h₂] ∧ HexDigit h₁ v₁ ∧ HexDigit h₂ v₂ ∧
        UInt8.ofNat (16 * v₁ + v₂) = b := by
  unfold escapeByte
  split_ifs with h
  · obtain ⟨hlow, _, hbackslash, hquote⟩ := h
    refine .inl ⟨rfl, ?_, hquote, hbackslash⟩
    rintro rfl
    exact absurd hlow (by decide)
  · obtain ⟨hhigh, hlow⟩ := toNat_halves_lt b
    exact .inr ⟨_, _, _, _, rfl, HexDigit.upperCase hhigh, HexDigit.upperCase hlow, ofNat_halves b⟩

theorem unescape_escapeByte (b : UInt8) (s : Bytes) :
    unescape (escapeByte b ++ s) = b :: unescape s := by
  rcases escapeByte_cases b with ⟨hb, _, _, hne⟩ | ⟨h₁, h₂, v₁, v₂, hb, hv₁, hv₂, hvalue⟩
  · rw [hb]
    exact unescape_cons_of_ne hne s
  · rw [hb]
    have hsum : UInt8.ofNat v₁ * 16 + UInt8.ofNat v₂ = b := by
      rw [← hvalue, UInt8.ofNat_add, UInt8.ofNat_mul, UInt8.mul_comm]
      rfl
    rw [← hsum]
    exact unescape_hex hv₁.hexValue? hv₂.hexValue? s

theorem unescape_escape (literal : Bytes) : unescape (literal.flatMap escapeByte) = literal := by
  induction literal with
  | nil => rfl
  | cons b literal ih => rw [List.flatMap_cons, unescape_escapeByte, ih]

theorem not_mem_escapeByte {b c : UInt8} (h : c ∈ escapeByte b) : c ≠ Byte.lf ∧ c ≠ Byte.quote := by
  rcases escapeByte_cases b with ⟨hb, hlf, hquote, _⟩ | ⟨h₁, h₂, v₁, v₂, hb, hv₁, hv₂, _⟩
  · rw [hb, List.mem_singleton] at h
    exact h ▸ ⟨hlf, hquote⟩
  · have hdigit : ∀ {d v}, HexDigit d v → d ≠ Byte.lf ∧ d ≠ Byte.quote := by
      intro d v hd
      have hge := hd.ge_zero
      constructor
      · rintro rfl
        exact absurd hge (by decide)
      · rintro rfl
        exact absurd hge (by decide)
    simp only [hb, List.mem_cons, List.not_mem_nil, or_false] at h
    rcases h with rfl | rfl | rfl
    · decide
    · exact hdigit hv₁
    · exact hdigit hv₂

theorem not_mem_escape {literal : Bytes} {c : UInt8} (h : c ∈ literal.flatMap escapeByte) :
    c ≠ Byte.lf ∧ c ≠ Byte.quote := by
  obtain ⟨b, _, hc⟩ := List.mem_flatMap.mp h
  exact not_mem_escapeByte hc

def constantOf (literal : Bytes) (index : Nat) : Constant :=
  ⟨symbol index, literal.length, literal⟩

def constantLine (literal : Bytes) (index : Nat) : Bytes :=
  utf8 "@" ++ symbol index ++ utf8 " = private unnamed_addr constant [" ++
    Decimal.ofNat literal.length ++ utf8 " x i8] c\"" ++ literal.flatMap escapeByte ++
    utf8 "\", align 1"

theorem constantRow_eq (literal : Bytes) (index : Nat) :
    constantRow literal index = constantLine literal index ++ [Byte.lf] := by
  have hend : utf8 "\", align 1\n" = utf8 "\", align 1" ++ [Byte.lf] := by decide
  rw [constantRow, constantLine, hend, ← List.append_assoc]

theorem constantLine_eq (literal : Bytes) (index : Nat) :
    constantLine literal index =
      utf8 "@.quill_text." ++ (Decimal.ofNat index ++ (utf8 " = " ++
        (utf8 "private unnamed_addr constant " ++ (utf8 "[" ++ (Decimal.ofNat literal.length ++
          (utf8 " x i8] c\"" ++ (literal.flatMap escapeByte ++
            Byte.quote :: utf8 ", align 1"))))))) := by
  have hname : utf8 "@.quill_text." = utf8 "@" ++ utf8 ".quill_text." := by decide
  have hlinkage : utf8 " = private unnamed_addr constant [" =
      utf8 " = " ++ (utf8 "private unnamed_addr constant " ++ utf8 "[") := by decide
  have hend : utf8 "\", align 1" = Byte.quote :: utf8 ", align 1" := by decide
  simp only [constantLine, symbol, hname, hlinkage, hend, List.append_assoc]

theorem ofLine_constantLine (literal : Bytes) (index : Nat) :
    Constant.ofLine? (constantLine literal index) = some (constantOf literal index) := by
  have hquote : ∀ b ∈ literal.flatMap escapeByte, (b != Byte.quote) = true := by
    intro b hb
    simpa using (not_mem_escape hb).2
  have hbody (rest : Bytes) :
      (literal.flatMap escapeByte ++ Byte.quote :: rest).takeWhile (· != Byte.quote) =
        literal.flatMap escapeByte := by
    rw [List.takeWhile_append_of_pos hquote, List.takeWhile_cons_of_neg (by simp),
      List.append_nil]
  have hlinkage (rest : Bytes) :
      (utf8 "private unnamed_addr constant " ++ (utf8 "[" ++ rest)).dropWhile
        (· != Byte.openBracket) = utf8 "[" ++ rest := rfl
  have hindex (rest : Bytes) : (utf8 " = " ++ rest).takeWhile Byte.isDigit = [] := rfl
  have hsize (rest : Bytes) : (utf8 " x i8] c\"" ++ rest).takeWhile Byte.isDigit = [] := rfl
  rw [constantLine_eq]
  simp [Constant.ofLine?, Decimal.takeWhile_ofNat, Decimal.dropWhile_ofNat, hindex, hlinkage, hsize,
    hbody, unescape_escape, constantOf, symbol]

/-- A call with its literal's constant in place of the literal. -/
def namedCall (constants : List Bytes) : Call → NamedCall
  | .append text => .append (symbol (constants.idxOf text)) text.length
  | .printBuffer => .printBuffer
  | .writeLine text => .writeLine (symbol (constants.idxOf text)) text.length

def callLine (constants : List Bytes) : Call → Bytes
  | .append text =>
    utf8 "  call void @quill_append(ptr %buf, " ++ argument constants text ++ utf8 ")"
  | .printBuffer => utf8 "  call void @quill_print_current(ptr %buf)"
  | .writeLine text => utf8 "  call void @quill_write_line(" ++ argument constants text ++ utf8 ")"

theorem callRow_eq (constants : List Bytes) (call : Call) :
    callRow constants call = callLine constants call ++ [Byte.lf] := by
  have hend : utf8 ")\n" = utf8 ")" ++ [Byte.lf] := by decide
  cases call with
  | append text => simp only [callRow, callLine, hend, List.append_assoc]
  | printBuffer => rfl
  | writeLine text => simp only [callRow, callLine, hend, List.append_assoc]

theorem argumentOf_argument (constants : List Bytes) (literal : Bytes) :
    NamedCall.argumentOf? (argument constants literal ++ utf8 ")") =
      some (symbol (constants.idxOf literal), literal.length) := by
  have hname : ∀ b ∈ symbol (constants.idxOf literal), (b != 0x2C) = true := by
    intro b hb
    rcases List.mem_append.mp hb with h | h
    · exact List.all_eq_true.mp (by decide : (utf8 ".quill_text.").all (· != 0x2C) = true) b h
    · have hdigit := Decimal.isDigit_of_mem_ofNat h
      rw [bne_iff_ne]
      rintro rfl
      exact absurd hdigit (by decide)
  have hcomma (rest : Bytes) : (utf8 ", i64 " ++ rest).takeWhile (· != 0x2C) = [] := rfl
  have hcomma' (rest : Bytes) :
      (utf8 ", i64 " ++ rest).dropWhile (· != 0x2C) = utf8 ", i64 " ++ rest := rfl
  have hclose : (utf8 ")").takeWhile Byte.isDigit = [] := by decide
  rw [argument, List.append_assoc, List.append_assoc, List.append_assoc]
  simp [NamedCall.argumentOf?, List.takeWhile_append_of_pos hname,
    List.dropWhile_append_of_pos hname, hcomma, hcomma', Decimal.takeWhile_ofNat _ hclose,
    Decimal.dropWhile_ofNat _ hclose]

theorem ofLine_callLine (constants : List Bytes) (call : Call) :
    NamedCall.ofLine? (callLine constants call) = some (namedCall constants call) := by
  have happend : utf8 "  call void @quill_append(ptr %buf, " =
      utf8 "  call void @quill_" ++ utf8 "append(ptr %buf, " := by decide
  have hwrite : utf8 "  call void @quill_write_line(" =
      utf8 "  call void @quill_" ++ utf8 "write_line(" := by decide
  have hother (rest : Bytes) :
      (utf8 "write_line(" ++ rest).dropPrefix? (utf8 "append(ptr %buf, ") = none := rfl
  cases call with
  | append text =>
      rw [callLine, happend, List.append_assoc, List.append_assoc]
      simp [NamedCall.ofLine?, NamedCall.ofHelper?, argumentOf_argument, namedCall]
  | printBuffer => rfl
  | writeLine text =>
      rw [callLine, hwrite, List.append_assoc, List.append_assoc]
      simp [NamedCall.ofLine?, NamedCall.ofHelper?, hother, argumentOf_argument, namedCall]

end Assembly
end Linewise
