import Linewise.Diagnostic.Message
import Linewise.Proofs.Decimal
import Linewise.Proofs.Trimmed
import Mathlib.Data.List.Infix
/-!
The arguments of a message. Put in all at once, an argument stands for its placeholder as it is.
They are put in one after the other, so the first argument of a diagnostic shows what the later ones
make of it, and exactly where that is the argument itself the message is the filled template.
-/
namespace Linewise

namespace Bytes
variable {pattern replacement : Bytes} {b : UInt8}

/-- Nothing is replaced before the first byte of the pattern is met. -/
theorem replaceFrom_front (hb : pattern.head? = some b) {front : Bytes} (hfront : b ∉ front)
    (rest : Bytes) : replaceFrom pattern replacement 0 (front ++ rest) =
      front ++ replaceFrom pattern replacement 0 rest := by
  induction front with
  | nil => rfl
  | cons c front ih =>
      rw [List.mem_cons, not_or] at hfront
      have hno : ¬ pattern.isPrefixOf (c :: (front ++ rest)) = true := by
        rw [List.isPrefixOf_iff_prefix]
        rintro ⟨t, ht⟩
        have hhead : b ∈ (pattern ++ t).head? := List.mem_head?_append_of_mem_head? hb
        rw [ht] at hhead
        exact hfront.1 (Option.some.inj hhead).symm
      rw [List.cons_append, replaceFrom, if_neg hno, ih hfront.2, List.cons_append]

theorem replaceFrom_of_not_mem (hb : pattern.head? = some b) {s : Bytes} (h : b ∉ s) :
    replaceFrom pattern replacement 0 s = s := by
  have hfront : replaceFrom pattern replacement 0 (s ++ []) = s ++ [] :=
    replaceFrom_front hb h []
  rwa [List.append_nil] at hfront

/-- A pattern reaches no further than a byte that it ends with. -/
theorem prefix_of_prefix_append (hb : pattern.getLast? = some b) {s back : Bytes}
    (hback : b ∉ back) (h : pattern <+: s ++ back) : pattern <+: s := by
  rcases List.prefix_or_prefix_of_prefix h (List.prefix_append s back) with hs | ⟨t, ht⟩
  · exact hs
  · by_cases hnil : t = []
    · rw [← ht, hnil, List.append_nil]
    · rw [← ht, List.prefix_append_right_inj] at h
      rw [← ht, List.getLast?_append_of_ne_nil s hnil] at hb
      exact absurd (h.subset (List.mem_of_getLast? hb)) hback

/-- Nothing is replaced where neither end of the pattern occurs. -/
theorem replaceFrom_back {first last : UInt8} (hhead : pattern.head? = some first)
    (hend : pattern.getLast? = some last) {back : Bytes} (hfirst : first ∉ back)
    (hlast : last ∉ back) (skip : Nat) (s : Bytes) (hskip : skip ≤ s.length) :
    replaceFrom pattern replacement skip (s ++ back) =
      replaceFrom pattern replacement skip s ++ back := by
  fun_induction replaceFrom pattern replacement skip s with
  | case1 skip =>
      obtain rfl : skip = 0 := Nat.le_zero.mp hskip
      exact replaceFrom_of_not_mem hhead hfirst
  | case2 skip c rest ih => exact ih (Nat.le_of_succ_le_succ hskip)
  | case3 c rest hmatch ih =>
      have hstarts := List.isPrefixOf_iff_prefix.mp hmatch
      have hwhole : pattern.isPrefixOf (c :: (rest ++ back)) = true :=
        List.isPrefixOf_iff_prefix.mpr (hstarts.trans (List.prefix_append (c :: rest) back))
      have hlength := hstarts.length_le
      rw [List.length_cons] at hlength
      rw [List.cons_append, replaceFrom, if_pos hwhole, ih (by omega), List.append_assoc]
  | case4 c rest hmatch ih =>
      have hno : ¬ pattern.isPrefixOf (c :: (rest ++ back)) = true := by
        rw [List.isPrefixOf_iff_prefix] at hmatch ⊢
        exact fun h => hmatch (prefix_of_prefix_append hend hlast h)
      rw [List.cons_append, replaceFrom, if_neg hno, ih (Nat.zero_le _), List.cons_append]

theorem replaceFrom_skip (front rest : Bytes) :
    replaceFrom pattern replacement front.length (front ++ rest) =
      replaceFrom pattern replacement 0 rest := by
  induction front with
  | nil => rfl
  | cons c front ih => exact ih

/-- The pattern itself becomes the replacement. -/
theorem replaceAll_self (hne : pattern ≠ []) :
    replaceAll pattern pattern replacement = replacement := by
  cases pattern with
  | nil => exact absurd rfl hne
  | cons c pattern =>
      have hskip : replaceFrom (c :: pattern) replacement pattern.length (pattern ++ []) = [] :=
        replaceFrom_skip pattern []
      rw [List.append_nil] at hskip
      rw [replaceAll, replaceFrom, if_pos (by simp), List.length_cons, Nat.add_sub_cancel, hskip,
        List.append_nil]

theorem replaceFrom_of_not_infix {s : Bytes} (h : ¬ pattern <:+: s) :
    replaceFrom pattern replacement 0 s = s := by
  induction s with
  | nil => rfl
  | cons c s ih =>
      have hno : ¬ pattern.isPrefixOf (c :: s) = true := fun hstarts =>
        h (List.isPrefixOf_iff_prefix.mp hstarts).isInfix
      rw [replaceFrom, if_neg hno, ih fun hs => h (hs.trans (List.suffix_cons c s).isInfix)]

/-- Replacing the pattern by itself changes nothing. -/
theorem replaceFrom_same (hne : pattern ≠ []) (skip : Nat) (s : Bytes) :
    replaceFrom pattern pattern skip s = s.drop skip := by
  fun_induction replaceFrom pattern pattern skip s with
  | case1 skip => exact List.drop_nil.symm
  | case2 skip c rest ih => exact ih
  | case3 c rest hmatch ih =>
      obtain ⟨t, ht⟩ := List.isPrefixOf_iff_prefix.mp hmatch
      cases pattern with
      | nil => exact absurd rfl hne
      | cons c' pattern =>
          rw [List.cons_append] at ht
          obtain ⟨rfl, rfl⟩ := List.cons.inj ht
          rw [ih, List.length_cons, Nat.add_sub_cancel, List.drop_left]
          rfl
  | case4 c rest hmatch ih =>
      rw [ih]
      rfl

theorem length_replaceFrom_nil (skip : Nat) (s : Bytes) :
    (replaceFrom pattern [] skip s).length ≤ s.length := by
  fun_induction replaceFrom pattern [] skip s with
  | case1 skip => exact Nat.le_refl _
  | case2 skip c rest ih => exact Nat.le_succ_of_le ih
  | case3 c rest hmatch ih => exact Nat.le_succ_of_le ih
  | case4 c rest hmatch ih => exact Nat.succ_le_succ ih

/-- Erasing a pattern that occurs shortens the text. -/
theorem length_replaceFrom_nil_lt {s : Bytes} (hne : pattern ≠ []) (h : pattern <:+: s) :
    (replaceFrom pattern [] 0 s).length < s.length := by
  induction s with
  | nil => exact absurd (List.infix_nil.mp h) hne
  | cons c s ih =>
      by_cases hmatch : pattern.isPrefixOf (c :: s) = true
      · rw [replaceFrom, if_pos hmatch]
        exact Nat.lt_succ_of_le (length_replaceFrom_nil _ s)
      · rw [List.infix_cons_iff, ← List.isPrefixOf_iff_prefix] at h
        rw [replaceFrom, if_neg hmatch]
        exact Nat.succ_lt_succ (ih (h.resolve_left hmatch))

end Bytes

/-! ### Placeholders -/

/-- The braces around the number of a placeholder. -/
def Byte.openBrace : UInt8 := 0x7B

def Byte.closeBrace : UInt8 := 0x7D

theorem placeholder_eq (i : Nat) :
    placeholder i = Byte.openBrace :: (Decimal.ofNat i ++ [Byte.closeBrace]) := rfl

theorem placeholder_ne_nil (i : Nat) : placeholder i ≠ [] := List.cons_ne_nil _ _

theorem head?_placeholder (i : Nat) : (placeholder i).head? = some Byte.openBrace := rfl

theorem getLast?_placeholder (i : Nat) : (placeholder i).getLast? = some Byte.closeBrace := by
  rw [placeholder_eq, ← List.cons_append, List.getLast?_concat]

theorem closeBrace_not_mem_ofNat (i : Nat) : Byte.closeBrace ∉ Decimal.ofNat i :=
  fun h => absurd (Decimal.isDigit_of_mem_ofNat h) (by decide)

/-- No placeholder starts another. -/
theorem placeholder_append_inj {i j : Nat} {s t : Bytes}
    (h : placeholder i ++ s = placeholder j ++ t) : i = j ∧ s = t := by
  simp only [placeholder_eq, List.cons_append, List.append_assoc, List.nil_append] at h
  obtain ⟨hnumber, hrest⟩ := first_cut_inj (closeBrace_not_mem_ofNat i)
    (closeBrace_not_mem_ofNat j) (List.cons.inj h).2
  exact ⟨Decimal.ofNat_injective hnumber, hrest⟩

/-- In one pass, every placeholder of an argument is replaced by the argument, and everything else
is left as it is. -/
inductive Filled (args : List Bytes) : Bytes → Bytes → Prop
  | nil : Filled args [] []
  | put {i arg s t} (harg : args[i]? = some arg) (h : Filled args s t) :
      Filled args (placeholder i ++ s) (arg ++ t)
  | keep {b s t} (hb : ∀ i < args.length, ¬ placeholder i <+: b :: s) (h : Filled args s t) :
      Filled args (b :: s) (b :: t)

namespace Filled
variable {args : List Bytes} {s t t' : Bytes}

theorem put_inv {i : Nat} {arg : Bytes} (harg : args[i]? = some arg)
    (h : Filled args (placeholder i ++ s) t) : ∃ t', t = arg ++ t' ∧ Filled args s t' := by
  generalize hs : placeholder i ++ s = whole at h
  cases h with
  | nil => cases hs
  | put harg' h =>
      obtain ⟨rfl, rfl⟩ := placeholder_append_inj hs
      cases harg.symm.trans harg'
      exact ⟨_, rfl, h⟩
  | keep hb h =>
      have hi : i < args.length := (List.getElem?_eq_some_iff.mp harg).1
      exact absurd (hs ▸ List.prefix_append _ _) (hb i hi)

theorem keep_inv {b : UInt8} (hb : ∀ i < args.length, ¬ placeholder i <+: b :: s)
    (h : Filled args (b :: s) t) : ∃ t', t = b :: t' ∧ Filled args s t' := by
  generalize hs : b :: s = whole at h
  cases h with
  | nil => cases hs
  | @put i arg s' t' harg h =>
      have hi : i < args.length := (List.getElem?_eq_some_iff.mp harg).1
      exact absurd (hs ▸ List.prefix_append _ _) (hb i hi)
  | keep hb' h =>
      obtain ⟨rfl, rfl⟩ := List.cons.inj hs
      exact ⟨_, rfl, h⟩

/-- There is one way to fill a text. -/
theorem unique (h : Filled args s t) (h' : Filled args s t') : t' = t := by
  induction h generalizing t' with
  | nil =>
      generalize hs : ([] : Bytes) = whole at h'
      cases h' with
      | nil => rfl
      | put harg h => cases hs
      | keep hb h => cases hs
  | put harg h ih =>
      obtain ⟨_, rfl, hrest⟩ := h'.put_inv harg
      rw [ih hrest]
  | keep hb h ih =>
      obtain ⟨_, rfl, hrest⟩ := h'.keep_inv hb
      rw [ih hrest]

/-- A stretch without an opening brace is left as it is. -/
theorem append_left {front : Bytes} (hfront : Byte.openBrace ∉ front) (h : Filled args s t) :
    Filled args (front ++ s) (front ++ t) := by
  induction front with
  | nil => exact h
  | cons b front ih =>
      rw [List.mem_cons, not_or] at hfront
      refine .keep (fun i _ hstarts => hfront.1 ?_) (ih hfront.2)
      rw [placeholder_eq] at hstarts
      exact (List.cons_prefix_cons.mp hstarts).1

theorem of_not_mem (args : List Bytes) (h : Byte.openBrace ∉ s) : Filled args s s := by
  have hfilled : Filled args (s ++ []) (s ++ []) := append_left h .nil
  rwa [List.append_nil] at hfilled

end Filled

/-! ### The arguments in turn -/

/-- What stands around a text, without opening braces before it and without braces behind it, stays
around it. -/
theorem fillFrom_around {front back : Bytes} (hfront : Byte.openBrace ∉ front)
    (hback : Byte.openBrace ∉ back ∧ Byte.closeBrace ∉ back) (k : Nat) (s : Bytes)
    (args : List Bytes) :
    fillFrom k (front ++ s ++ back) args = front ++ fillFrom k s args ++ back := by
  induction args generalizing k s with
  | nil => rfl
  | cons arg args ih =>
      have hreplaced : Bytes.replaceAll (front ++ s ++ back) (placeholder k) arg =
          front ++ Bytes.replaceAll s (placeholder k) arg ++ back := by
        simp only [Bytes.replaceAll]
        rw [List.append_assoc, Bytes.replaceFrom_front (head?_placeholder k) hfront,
          Bytes.replaceFrom_back (head?_placeholder k) (getLast?_placeholder k) hback.1 hback.2 0 s
            (Nat.zero_le _), List.append_assoc]
      rw [fillFrom, hreplaced, ih, fillFrom]

/-- A text without the placeholders of the arguments is left as it is. -/
theorem fillFrom_of_not_infix {k : Nat} {s : Bytes} {args : List Bytes}
    (h : ∀ i < args.length, ¬ placeholder (k + i) <:+: s) : fillFrom k s args = s := by
  induction args generalizing k with
  | nil => rfl
  | cons arg args ih =>
      have hfirst : ¬ placeholder k <:+: s := h 0 (Nat.succ_pos _)
      rw [fillFrom, Bytes.replaceAll, Bytes.replaceFrom_of_not_infix hfirst]
      refine ih fun i hi => ?_
      rw [Nat.add_right_comm]
      exact h (i + 1) (Nat.succ_lt_succ hi)

theorem fillFrom_of_not_mem {s : Bytes} (h : Byte.openBrace ∉ s) (k : Nat) (args : List Bytes) :
    fillFrom k s args = s :=
  fillFrom_of_not_infix fun _ _ hin => h (hin.subset List.mem_cons_self)

/-- Placeholders that stand for themselves change nothing. -/
theorem fillFrom_placeholders (k n : Nat) (s : Bytes) :
    fillFrom k s ((List.range' k n).map placeholder) = s := by
  induction n generalizing k with
  | zero => rfl
  | succ n ih =>
      rw [List.range'_succ, List.map_cons, fillFrom, Bytes.replaceAll,
        Bytes.replaceFrom_same (placeholder_ne_nil k), List.drop_zero, ih]

theorem fillFrom_append (k : Nat) (s : Bytes) (front back : List Bytes) :
    fillFrom k s (front ++ back) = fillFrom (k + front.length) (fillFrom k s front) back := by
  induction front generalizing k s with
  | nil => rfl
  | cons arg front ih =>
      rw [List.cons_append, fillFrom, ih, fillFrom, List.length_cons, Nat.add_right_comm]
      rfl

/-- Whatever `n` arguments are put in, a text is left as it is exactly if it holds none of their
placeholders. -/
theorem fillFrom_eq_iff (k n : Nat) (s : Bytes) :
    (∀ args : List Bytes, args.length = n → fillFrom k s args = s) ↔
      ∀ i < n, ¬ placeholder (k + i) <:+: s := by
  constructor
  · intro h i hi hinfix
    -- The other placeholders stand for themselves, and this one for nothing.
    let front := (List.range' k i).map placeholder
    let back := (List.range' (k + i + 1) (n - (i + 1))).map placeholder
    have hlength : (front ++ [] :: back).length = n := by
      simp only [front, back, List.length_append, List.length_map, List.length_range',
        List.length_cons]
      omega
    have hsame := h _ hlength
    rw [fillFrom_append, fillFrom_placeholders] at hsame
    simp only [front, back, List.length_map, List.length_range', fillFrom] at hsame
    rw [fillFrom_placeholders] at hsame
    have hshorter := Bytes.length_replaceFrom_nil_lt (placeholder_ne_nil (k + i)) hinfix
    rw [Bytes.replaceAll] at hsame
    rw [hsame] at hshorter
    exact Nat.lt_irrefl _ hshorter
  · rintro h args rfl
    exact fillFrom_of_not_infix h

/-! ### Messages -/

/-- The findings whose templates hold a placeholder. -/
def Finding.takesArgument : Finding → Bool
  | .missingHalt | .trailingAfterHalt => false
  | .invalidStatement | .lineEndingMismatch | .deadTrailingEmit | .unknownOpcode
  | .malformedLiteral => true

namespace Finding
variable (language : Language) (f : Finding)

/-- The template up to its placeholder. -/
def front : Bytes := (f.template language).takeWhile (· != Byte.openBrace)

/-- The template behind its placeholder. -/
def back : Bytes := ((f.template language).dropWhile (· != Byte.openBrace)).drop 3

/-- Only the placeholder of the first argument stands in a template. -/
theorem template_eq (h : f.takesArgument = true) :
    f.template language = f.front language ++ placeholder 0 ++ f.back language ∧
      Byte.openBrace ∉ f.front language ∧
      Byte.openBrace ∉ f.back language ∧ Byte.closeBrace ∉ f.back language := by
  have hsplit : ((f.template language).dropWhile (· != Byte.openBrace)).take 3 = placeholder 0 ∧
      (f.back language).all (fun b => b != Byte.openBrace && b != Byte.closeBrace) = true := by
    rw [back]
    cases language <;> cases f <;> cases h
    all_goals
      simp only [template, englishTemplate, koreanTemplate]
      repeat rw [utf8_ofList]
      decide +kernel
  have hback := List.all_eq_true.mp hsplit.2
  refine ⟨?_, fun hmem => ?_, fun hmem => ?_, fun hmem => ?_⟩
  · rw [front, ← hsplit.1, back, List.append_assoc, List.take_append_drop,
      List.takeWhile_append_dropWhile]
  · simpa using List.mem_takeWhile_imp hmem
  · simpa using hback _ hmem
  · simpa using hback _ hmem

theorem openBrace_not_mem_template (h : f.takesArgument = false) :
    Byte.openBrace ∉ f.template language := by
  have hall : (f.template language).all (· != Byte.openBrace) = true := by
    cases language <;> cases f <;> cases h
    all_goals
      simp only [template, englishTemplate, koreanTemplate]
      rw [utf8_ofList]
      decide +kernel
  intro hmem
  simpa using List.all_eq_true.mp hall _ hmem

/-- A template is filled by its argument. -/
theorem filled_template_iff (h : f.takesArgument = true) (arg : Bytes) (rest : List Bytes)
    (t : Bytes) : Filled (arg :: rest) (f.template language) t ↔
      t = f.front language ++ arg ++ f.back language := by
  obtain ⟨htemplate, hfront, hback, -⟩ := f.template_eq language h
  have hfilled : Filled (arg :: rest) (f.template language)
      (f.front language ++ arg ++ f.back language) := by
    rw [htemplate, List.append_assoc, List.append_assoc]
    exact .append_left hfront (.put rfl (.of_not_mem _ hback))
  constructor
  · exact hfilled.unique
  · rintro rfl
    exact hfilled

end Finding

theorem filled_of_no_args (s : Bytes) : Filled [] s s := by
  induction s with
  | nil => exact .nil
  | cons b s ih => exact .keep (fun i hi => absurd hi (Nat.not_lt_zero i)) ih

namespace Diagnostic
variable (language : Language) (d : Diagnostic)

/-- A message is always its template, filled by what the later arguments make of the first. -/
theorem message_eq :
    d.message language = match d.args with
      | [] => d.finding.template language
      | arg :: rest => if d.finding.takesArgument then
          d.finding.front language ++ fillFrom 1 arg rest ++ d.finding.back language
        else d.finding.template language := by
  rw [message]
  cases d.args with
  | nil => rfl
  | cons arg rest =>
      dsimp only
      split
      · rename_i h
        obtain ⟨htemplate, hfront, hback⟩ := d.finding.template_eq language h
        conv => lhs; rw [htemplate, fillFrom_around hfront hback, fillFrom,
          Bytes.replaceAll_self (placeholder_ne_nil 0)]
      · rename_i h
        have htemplate := d.finding.openBrace_not_mem_template language (by simpa using h)
        exact fillFrom_of_not_mem htemplate 0 (arg :: rest)

/-- The message is the filled template, except where the later arguments change the first. -/
theorem filled_iff :
    Filled d.args (d.finding.template language) (d.message language) ↔
      ∀ arg rest, d.args = arg :: rest → d.finding.takesArgument = true →
        fillFrom 1 arg rest = arg := by
  rw [d.message_eq language]
  cases d.args with
  | nil => simp [filled_of_no_args]
  | cons arg rest =>
      cases htakes : d.finding.takesArgument with
      | false =>
          have htemplate := d.finding.openBrace_not_mem_template language htakes
          simp [Filled.of_not_mem _ htemplate]
      | true =>
          rw [d.finding.filled_template_iff language htakes]
          constructor
          · rintro heq _ _ h -
            obtain ⟨rfl, rfl⟩ := List.cons.inj h
            exact List.append_cancel_left (List.append_cancel_right heq)
          · intro h
            simp [h arg rest rfl rfl]

/-- What the later arguments make of the first stands in its place. -/
theorem filled_first :
    Filled (d.args.modifyHead (fillFrom 1 · d.args.tail)) (d.finding.template language)
      (d.message language) := by
  rw [d.message_eq language]
  cases d.args with
  | nil => exact filled_of_no_args _
  | cons arg rest =>
      cases htakes : d.finding.takesArgument with
      | false => exact .of_not_mem _ (d.finding.openBrace_not_mem_template language htakes)
      | true => exact (d.finding.filled_template_iff language htakes _ _ _).mpr rfl

/-- Arguments are inserted as they are exactly if the later ones, put into the first in turn, leave
it as it is; otherwise what they make of it is inserted. A first argument is safe from any later
ones exactly if it holds none of their placeholders. -/
theorem message_filled_iff :
    (Filled d.args (d.finding.template language) (d.message language) ↔
        ∀ arg rest, d.args = arg :: rest → d.finding.takesArgument = true →
          fillFrom 1 arg rest = arg) ∧
      Filled (d.args.modifyHead (fillFrom 1 · d.args.tail)) (d.finding.template language)
        (d.message language) ∧
      ∀ arg n, (∀ rest : List Bytes, rest.length = n →
          Filled (arg :: rest) (d.finding.template language)
            ({ d with args := arg :: rest }.message language)) ↔
        (d.finding.takesArgument = true → ∀ i < n, ¬ placeholder (1 + i) <:+: arg) := by
  refine ⟨d.filled_iff language, d.filled_first language, fun arg n => ?_⟩
  have hfilled (rest : List Bytes) : Filled (arg :: rest) (d.finding.template language)
      ({ d with args := arg :: rest }.message language) ↔
        (d.finding.takesArgument = true → fillFrom 1 arg rest = arg) := by
    rw [filled_iff language { d with args := arg :: rest }]
    simp
  simp only [hfilled, ← fillFrom_eq_iff]
  exact ⟨fun h htakes rest hlength => h rest hlength htakes,
    fun h rest hlength htakes => h htakes rest hlength⟩

/-- A placeholder in the first argument is taken for one of the template. -/
theorem message_fills_argument :
    let d : Diagnostic := ⟨.error, .unknownOpcode, ⟨0, 0, 0⟩, [utf8 "\x7b1\x7d", utf8 "x"]⟩
    d.message .english = utf8 "unknown QIR opcode 'x'" ∧
      Filled d.args (d.finding.template .english) (utf8 "unknown QIR opcode '\x7b1\x7d'") ∧
      ¬ Filled d.args (d.finding.template .english) (d.message .english) := by
  intro d
  have hmessage : d.message .english = utf8 "unknown QIR opcode 'x'" := by decide +kernel
  have hfilled : Filled d.args (d.finding.template .english)
      (utf8 "unknown QIR opcode '\x7b1\x7d'") :=
    (Finding.unknownOpcode.filled_template_iff .english rfl _ _ _).mpr (by decide +kernel)
  refine ⟨hmessage, hfilled, fun h => ?_⟩
  have heq := hfilled.unique h
  rw [hmessage] at heq
  exact absurd heq (by decide +kernel)

end Diagnostic
end Linewise
