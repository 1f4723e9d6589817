import Linewise.Proofs.Source.Starts
/-!
How many lines end before an offset. Under the rule of line feeds that is the number of line feeds
before it. Under the universal rule the carriage returns that no line feed follows count as well, and
so the same offset may lie on a later line.
-/
namespace Linewise

/-- The carriage returns among the first `n` bytes of a text that no line feed follows. -/
def loneReturns : Nat → Bytes → Nat
  | 0, _ => 0
  | _ + 1, [] => 0
  | n + 1, b :: rest =>
    (if b = Byte.cr ∧ rest.head? ≠ some Byte.lf then 1 else 0) + loneReturns n rest

theorem loneReturns_eq_zero_iff (n : Nat) (s : Bytes) :
    loneReturns n s = 0 ↔ ∀ i < n, s[i]? = some Byte.cr → s[i + 1]? = some Byte.lf := by
  induction n generalizing s with
  | zero => simp [loneReturns]
  | succ n ih =>
      cases s with
      | nil => simp [loneReturns]
      | cons b rest =>
          rw [loneReturns, Nat.add_eq_zero_iff, ih, Nat.forall_lt_succ_left]
          refine and_congr ?_ Iff.rfl
          simp [List.head?_eq_getElem?]

/-- The lines of the universal rule that end within the first `n` bytes. -/
def universalBreaks (n : Nat) (s : Bytes) : Nat := (s.take n).count Byte.lf + loneReturns n s

theorem universalBreaks_cons (n : Nat) (b : UInt8) (s : Bytes) :
    universalBreaks (n + 1) (b :: s) =
      (if b = Byte.lf ∨ b = Byte.cr ∧ s.head? ≠ some Byte.lf then 1 else 0) +
        universalBreaks n s := by
  rw [universalBreaks, universalBreaks, List.take_succ_cons, List.count_cons, loneReturns]
  by_cases hlf : b = Byte.lf
  · subst hlf
    simp [Byte.lf, Byte.cr]
    omega
  · simp [hlf]
    omega

theorem universalBreaks_append (front s : Bytes) (n : Nat) :
    universalBreaks (front.length + n) (front ++ s) =
      universalBreaks front.length (front ++ s) + universalBreaks n s := by
  induction front with
  | nil => simp [universalBreaks, loneReturns]
  | cons b front ih =>
      rw [List.length_cons, Nat.add_right_comm, List.cons_append, universalBreaks_cons,
        universalBreaks_cons, ih, Nat.add_assoc]

namespace Newline

theorem Free.universalBreaks {text : Bytes} (h : Newline.universal.Free text) (n : Nat) :
    universalBreaks n text = 0 := by
  induction text generalizing n with
  | nil => cases n with
    | zero => rfl
    | succ n => rfl
  | cons b text ih =>
      cases n with
      | zero => rfl
      | succ n =>
          rw [universalBreaks_cons, ih h.tail, if_neg (by simp [h.head])]

/-- A line ends with the last byte of its terminator. -/
theorem universalBreaks_of_line {text t rest : Bytes} (htext : Newline.universal.Free text)
    (ht : Newline.universal.Ends t rest) {n : Nat} (hn : n ≤ text.length + t.length) :
    universalBreaks n (text ++ (t ++ rest)) = if n < text.length + t.length then 0 else 1 := by
  induction text generalizing n with
  | nil =>
      rw [List.length_nil, Nat.zero_add] at hn
      cases ht with
      | pair _ =>
          have hcases : n = 0 ∨ n = 1 ∨ n = 2 := by
            simp only [List.length_cons, List.length_nil] at hn
            omega
          rcases hcases with rfl | rfl | rfl
          · rfl
          · simp [universalBreaks, loneReturns, Byte.cr, Byte.lf]
          · simp [universalBreaks, loneReturns, Byte.cr, Byte.lf]
      | feed _ =>
          rcases Nat.le_one_iff_eq_zero_or_eq_one.mp hn with rfl | rfl
          · rfl
          · simp [universalBreaks, loneReturns, Byte.cr, Byte.lf]
      | lone hhead =>
          rcases Nat.le_one_iff_eq_zero_or_eq_one.mp hn with rfl | rfl
          · rfl
          · simpa [universalBreaks, loneReturns, Byte.cr, Byte.lf] using hhead
  | cons b text ih =>
      cases n with
      | zero => simp [universalBreaks, loneReturns]
      | succ n =>
          rw [List.length_cons] at hn
          have hlt : n + 1 < (b :: text).length + t.length ↔ n < text.length + t.length := by
            rw [List.length_cons]
            omega
          rw [List.cons_append, universalBreaks_cons, ih htext.tail (by omega),
            if_neg (by simp [htext.head]), Nat.zero_add]
          simp only [hlt]

theorem Ends.exists_getLast {rule : Newline} {t rest : Bytes} (h : rule.Ends t rest) :
    ∃ b, t.getLast? = some b ∧ (b = Byte.cr ∨ b = Byte.lf) := by
  cases h with
  | pair _ | feed _ => exact ⟨_, rfl, .inr rfl⟩
  | lone _ => exact ⟨_, rfl, .inl rfl⟩

/-- An offset of a source lies in the line whose number counts the breaks before it. At the very end
of a source that is so only if no terminator ends there. -/
theorem Cut.exists_universal {s : Bytes} {ps : List Piece} (h : Newline.universal.Cut s ps)
    {n : Nat} (hne : s ≠ []) (hn : n ≤ s.length)
    (hend : n = s.length → ∀ b ∈ s.getLast?, b ≠ Byte.cr ∧ b ≠ Byte.lf) :
    ∃ p, ps[universalBreaks n s]? = some p ∧ Piece.offset ps (universalBreaks n s) ≤ n ∧
      ∀ q, ps[universalBreaks n s + 1]? = some q →
        n < Piece.offset ps (universalBreaks n s + 1) := by
  induction h generalizing n with
  | nil => exact absurd rfl hne
  | last _ htext =>
      rw [htext.universalBreaks]
      exact ⟨_, rfl, Nat.zero_le _, fun q hq => by cases hq⟩
  | @line text t rest ps htext ht hcut ih =>
      have hbytes : (Piece.bytes ⟨text, t⟩).length = text.length + t.length := List.length_append
      by_cases hlt : n < text.length + t.length
      · rw [universalBreaks_of_line htext ht (Nat.le_of_lt hlt), if_pos hlt]
        refine ⟨_, rfl, Nat.zero_le _, fun _ _ => ?_⟩
        rw [Piece.offset_cons, hbytes]
        omega
      · obtain ⟨m, rfl⟩ := Nat.exists_eq_add_of_le (Nat.not_lt.mp hlt)
        have hbreaks : universalBreaks (text.length + t.length + m) (text ++ (t ++ rest)) =
            universalBreaks m rest + 1 := by
          have happend := universalBreaks_append (text ++ t) rest m
          rw [List.length_append, List.append_assoc,
            universalBreaks_of_line htext ht (Nat.le_refl _), if_neg (Nat.lt_irrefl _)] at happend
          rw [happend, Nat.add_comm]
        have hrest : rest ≠ [] := by
          rintro rfl
          obtain ⟨b, hb, hbreak⟩ := ht.exists_getLast
          rw [List.append_nil] at hn hend
          rw [List.getLast?_append_of_ne_nil _ ht.ne_nil, List.length_append] at hend
          rw [List.length_append] at hn
          have hfree := hend (by omega) b hb
          exact hbreak.elim hfree.1 hfree.2
        have hlast : (text ++ (t ++ rest)).getLast? = rest.getLast? := by
          rw [List.getLast?_append_of_ne_nil _ (List.append_ne_nil_of_right_ne_nil t hrest),
            List.getLast?_append_of_ne_nil _ hrest]
        simp only [List.length_append] at hn hend
        rw [hlast] at hend
        obtain ⟨p, hp, hlo, hnext⟩ := ih hrest (n := m) (by omega) fun hm => hend (by omega)
        rw [hbreaks]
        refine ⟨p, hp, ?_, fun q hq => ?_⟩
        · rw [Piece.offset_cons, hbytes]
          omega
        · rw [Piece.offset_cons, hbytes]
          have := hnext q hq
          omega

/-- Up to the end of a line's text there is one line feed for each line before. -/
theorem Cut.count_lf {s : Bytes} {ps : List Piece} (h : Newline.lf.Cut s ps) {k : Nat} {p : Piece}
    (hp : ps[k]? = some p) {i : Nat} (hi : i ≤ p.text.length) :
    (s.take (Piece.offset ps k + i)).count Byte.lf = k := by
  induction h generalizing k with
  | nil => cases hp
  | last _ htext =>
      cases k with
      | zero => exact List.count_eq_zero_of_not_mem fun hlf => htext (List.mem_of_mem_take hlf)
      | succ k => cases hp
  | @line text t rest ps htext ht _ ih =>
      cases k with
      | zero =>
          obtain rfl := Option.some.inj hp
          rw [Piece.offset_zero, Nat.zero_add, List.take_append_of_le_length hi]
          exact List.count_eq_zero_of_not_mem fun hlf => htext (List.mem_of_mem_take hlf)
      | succ k =>
          have hbytes : (Piece.bytes ⟨text, t⟩).length = (text ++ t).length := rfl
          have hcount : (text ++ t).count Byte.lf = 1 := by
            cases ht with
            | pair hrule => exact absurd rfl hrule
            | feed _ => simp [List.count_eq_zero_of_not_mem htext]
          rw [Piece.offset_cons, hbytes, Nat.add_assoc, ← List.append_assoc,
            List.take_length_add_append, List.count_append, hcount, ih hp, Nat.add_comm]

end Newline

/-- Under the universal rule an offset is located on the line that counts the breaks before it. -/
theorem SourceFile.locate_universal (name : Bytes) {content : Bytes}
    (hsize : content.length < UInt32.size) {offset : UInt32} (hne : content ≠ [])
    (hle : offset.toNat ≤ content.length)
    (hend : offset.toNat = content.length → ∀ b ∈ content.getLast?, b ≠ Byte.cr ∧ b ≠ Byte.lf) :
    ((⟨name, content, .universal⟩ : SourceFile).locate offset).line.toNat =
      universalBreaks offset.toNat content + 1 := by
  have hcut := Newline.universal.cut_pieces content
  obtain ⟨p, hp, hlo, hnext⟩ := hcut.exists_universal hne hle hend
  rw [locate, lineAt?_of_between hsize hp hlo hnext]
  exact hcut.toNat_number hp hsize

end Linewise
