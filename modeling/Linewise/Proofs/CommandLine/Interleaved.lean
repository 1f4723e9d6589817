import Linewise.CommandLine
/-!
The order of a command line. Options are read one after another and positional words are only
gathered, so it does not matter which of them stand between which options, as long as each option
keeps its value.
-/
namespace Linewise

/-- A word that is no option. -/
def IsPositional (w : Bytes) : Prop := w = [] ∨ w = utf8 "-" ∨ w.head? ≠ some Byte.minus

/-- An option with the value that it takes. -/
inductive OptionGroup : List Bytes → Prop
  | alone {w : Bytes} (hoption : ¬ IsPositional w) (hvalue : ∀ flag : ValueFlag, flag.word ≠ w) :
      OptionGroup [w]
  | valued (flag : ValueFlag) (value : Bytes) : OptionGroup [flag.word, value]

/-- A command line of options and positional words, each of them in order. -/
inductive Interleaved : List (List Bytes) → List Bytes → List Bytes → Prop
  | done : Interleaved [] [] []
  /-- An option that takes a value, where no word is left for it. -/
  | cutShort (flag : ValueFlag) : Interleaved [[flag.word]] [] [flag.word]
  | option {group groups positional args} (hgroup : OptionGroup group)
      (h : Interleaved groups positional args) :
      Interleaved (group :: groups) positional (group ++ args)
  | positional {w groups positional args} (hw : IsPositional w)
      (h : Interleaved groups positional args) : Interleaved groups (w :: positional) (w :: args)

theorem isPositional_iff (w : Bytes) :
    IsPositional w ↔ ¬ (1 < w.length ∧ w.head? = some Byte.minus) := by
  have hdash : utf8 "-" = [Byte.minus] := rfl
  rw [IsPositional, hdash]
  cases w with
  | nil => simp
  | cons b rest =>
      cases rest with
      | nil => simp [Decidable.em]
      | cons b' rest => simp

instance (w : Bytes) : Decidable (IsPositional w) := decidable_of_iff _ (isPositional_iff w).symm

namespace Word

theorem find?_word (flag : ValueFlag) :
    ValueFlag.all.find? (fun f => f.word = flag.word) = some flag := by
  cases flag <;> decide

theorem ofBytes_word (flag : ValueFlag) : ofBytes flag.word = .ok (.valueFlag flag) := by
  rw [ofBytes, find?_word]

theorem find?_eq_none {w : Bytes} (h : ∀ flag : ValueFlag, flag.word ≠ w) :
    ValueFlag.all.find? (fun f => f.word = w) = none := by
  rw [List.find?_eq_none]
  intro flag _
  simpa using h flag

theorem ofUnlisted_positional {w : Bytes} (h : IsPositional w) : ofUnlisted w = .ok .positional := by
  rw [isPositional_iff] at h
  rw [ofUnlisted, if_neg, if_neg h]
  rintro ⟨hlength, htake⟩
  refine h ⟨by omega, ?_⟩
  have hhead := List.head?_take (l := w) (i := 2)
  rw [htake] at hhead
  exact hhead.symm

theorem ofBytes_positional {w : Bytes} (h : IsPositional w) : ofBytes w = .ok .positional := by
  have hne {listed : Bytes} (hlisted : ¬ IsPositional listed) : w ≠ listed := by
    rintro rfl
    exact hlisted h
  have hflag (flag : ValueFlag) : flag.word ≠ w := by
    refine (hne ?_).symm
    cases flag <;> decide
  have hverbose : ¬ (w = utf8 "-v" ∨ w = utf8 "--verbose") :=
    not_or.mpr ⟨hne (by decide), hne (by decide)⟩
  rw [ofBytes, find?_eq_none hflag, Switch.ofWord?, if_neg (hne (by decide)),
    if_neg (hne (by decide)), if_neg (hne (by decide)), if_neg hverbose]
  exact ofUnlisted_positional h

/-- A word that is an option and takes no value sets something, or is faulty. -/
theorem ofBytes_alone {w : Bytes} (hoption : ¬ IsPositional w)
    (hvalue : ∀ flag : ValueFlag, flag.word ≠ w) :
    (∃ e, ofBytes w = .error e) ∨ ∃ s, ofBytes w = .ok (.setting s) := by
  rw [isPositional_iff, Decidable.not_not] at hoption
  rw [ofBytes, find?_eq_none hvalue]
  cases Switch.ofWord? w with
  | some s => exact .inr ⟨s, rfl⟩
  | none =>
      simp only [ofUnlisted]
      split
      · split
        · split
          · exact .inr ⟨_, rfl⟩
          · exact .inl ⟨_, rfl⟩
        · exact .inl ⟨_, rfl⟩
      · exact .inl ⟨_, rfl⟩

end Word

/-- An option changes what is read after it, or ends the reading; neither depends on the positional
words. -/
theorem OptionGroup.step {group : List Bytes} (h : OptionGroup group) (o : Options) :
    (∃ o' : Options, ∀ before rest,
      o.readWords before none (group ++ rest) = o'.readWords before none rest) ∨
    ∃ o' : Options, o'.error.isSome = true ∧ ∀ before rest,
      o.readWords before none (group ++ rest) = (o', before) := by
  cases h with
  | @alone w hoption hvalue =>
      simp only [List.singleton_append, Options.readWords]
      rcases Word.ofBytes_alone hoption hvalue with ⟨e, he⟩ | ⟨s, hs⟩
      · rw [he]
        exact .inr ⟨_, rfl, fun _ _ => rfl⟩
      · rw [hs]
        exact .inl ⟨_, fun _ _ => rfl⟩
  | valued flag value =>
      simp only [List.cons_append, List.nil_append, Options.readWords, Word.ofBytes_word]
      cases flag.apply o value with
      | error e => exact .inr ⟨_, rfl, fun _ _ => rfl⟩
      | ok o' => exact .inl ⟨o', fun _ _ => rfl⟩

namespace Interleaved
variable {groups : List (List Bytes)} {positional args : List Bytes}

/-- The options are read as if there were no positional words, and if none is faulty, all positional
words are gathered. -/
theorem readWords (h : Interleaved groups positional args) (o : Options) (before : List Bytes) :
    (o.readWords before none args).1 = (o.readWords [] none groups.flatten).1 ∧
      ((o.readWords before none args).1.error = none →
        (o.readWords before none args).2 = before ++ positional) := by
  induction h generalizing o before with
  | done => exact ⟨rfl, fun _ => (List.append_nil before).symm⟩
  | cutShort flag =>
      simp [Options.readWords, Word.ofBytes_word]
  | option hgroup h ih =>
      rw [List.flatten_cons]
      rcases hgroup.step o with ⟨o', hstep⟩ | ⟨o', herror, hstep⟩
      · rw [hstep, hstep]
        exact ih o' before
      · rw [hstep, hstep]
        refine ⟨rfl, fun hnone => ?_⟩
        rw [hnone] at herror
        cases herror
  | @positional w groups positional args hw h ih =>
      have hstep : o.readWords before none (w :: args) =
          o.readWords (before ++ [w]) none args := by
        rw [Options.readWords, Word.ofBytes_positional hw]
      have h := ih o (before ++ [w])
      rw [List.append_assoc, List.singleton_append] at h
      rw [hstep]
      exact h

theorem perm (h : Interleaved groups positional args) :
    args.Perm (groups.flatten ++ positional) := by
  induction h with
  | done => exact .refl _
  | cutShort flag => exact .refl _
  | option hgroup h ih =>
      rw [List.flatten_cons, List.append_assoc]
      exact ih.append_left _
  | positional hw h ih => exact (ih.cons _).trans List.perm_middle.symm

end Interleaved

/-- A request for the version or for help. -/
def IsRequest (w : Bytes) : Prop := w ∈ [utf8 "--version", utf8 "-h", utf8 "--help"]

instance (w : Bytes) : Decidable (IsRequest w) := inferInstanceAs (Decidable (w ∈ _))

theorem IsPositional.not_isRequest {w : Bytes} (h : IsPositional w) : ¬ IsRequest w := by
  intro hrequest
  simp only [IsRequest, List.mem_cons, List.not_mem_nil, or_false] at hrequest
  rcases hrequest with rfl | rfl | rfl
  · exact absurd h (by decide)
  · exact absurd h (by decide)
  · exact absurd h (by decide)

theorem Options.overriding?_eq_none {w : Bytes} (h : ¬ IsRequest w) : overriding? w = none := by
  simp only [IsRequest, List.mem_cons, List.not_mem_nil, or_false, not_or] at h
  rw [overriding?, if_neg h.1, if_neg (not_or.mpr h.2)]

theorem Options.overriding?_of_request {w : Bytes} (h : IsRequest w) :
    overriding? w = some .version ∨ overriding? w = some .usage := by
  simp only [IsRequest, List.mem_cons, List.not_mem_nil, or_false] at h
  rcases h with rfl | rfl | rfl
  · exact .inl rfl
  · exact .inr rfl
  · exact .inr rfl

/-- The first request is met, whatever stands around it. -/
theorem Options.read_of_request {args : List Bytes} {w : Bytes} (hw : w ∈ args)
    (h : IsRequest w) : read args = { mode := .version } ∨ read args = { mode := .usage } := by
  cases hfound : args.findSome? overriding? with
  | none =>
      have hnone := List.findSome?_eq_none_iff.mp hfound w hw
      rcases overriding?_of_request h with hsome | hsome
      · rw [hnone] at hsome
        cases hsome
      · rw [hnone] at hsome
        cases hsome
  | some mode =>
      have hread : read args = { mode := mode } := by
        cases args with
        | nil => cases hw
        | cons a args => rw [read, hfound]
      obtain ⟨w', -, hmode⟩ := List.exists_of_findSome?_eq_some hfound
      have hrequest : IsRequest w' := Decidable.byContradiction fun hnot => by
        rw [overriding?_eq_none hnot] at hmode
        cases hmode
      rw [hread]
      rcases overriding?_of_request hrequest with hversion | husage
      · rw [hversion] at hmode
        exact .inl (by rw [Option.some.inj hmode])
      · rw [husage] at hmode
        exact .inr (by rw [Option.some.inj hmode])

/-- A command line without requests is read word by word. -/
theorem Options.read_of_not_request {args : List Bytes} (hne : args ≠ [])
    (h : ∀ w ∈ args, ¬ IsRequest w) :
    Options.read args =
      let words := Options.readWords {} [] none args
      if words.1.error.isSome then words.1 else words.1.takePositional words.2 := by
  have hnone : args.findSome? Options.overriding? = none :=
    List.findSome?_eq_none_iff.mpr fun w hw => Options.overriding?_eq_none (h w hw)
  cases args with
  | nil => exact absurd rfl hne
  | cons w args => rw [Options.read, hnone]

/-- What a command line amounts to is told from its options and its positional words alone. -/
theorem Interleaved.read_eq {groups : List (List Bytes)} {positional args : List Bytes}
    (h : Interleaved groups positional args) (hne : groups.flatten ++ positional ≠ [])
    (hrequest : ∀ w ∈ groups.flatten ++ positional, ¬ IsRequest w) :
    Options.read args =
      let o := (({} : Options).readWords [] none groups.flatten).1
      if o.error.isSome then o else o.takePositional positional := by
  obtain ⟨hoptions, hgathered⟩ := h.readWords {} []
  have hsome : args ≠ [] := by
    rintro rfl
    exact hne h.perm.nil_eq.symm
  rw [Options.read_of_not_request hsome fun w hw => hrequest w (h.perm.mem_iff.mp hw)]
  simp only [hoptions]
  split
  · rfl
  · rename_i herror
    rw [hoptions] at hgathered
    rw [hgathered (by simpa using herror), List.nil_append]

/-- Options and positional words may change places. -/
theorem Options.read_interleaved {groups : List (List Bytes)} {positional args args' : List Bytes}
    (h : Interleaved groups positional args) (h' : Interleaved groups positional args')
    (hrequest : ∀ w ∈ groups.flatten ++ positional, ¬ IsRequest w) :
    Options.read args = Options.read args' := by
  by_cases hempty : groups.flatten ++ positional = []
  · have hargs := h.perm
    have hargs' := h'.perm
    rw [hempty, List.perm_nil] at hargs hargs'
    rw [hargs, hargs']
  · rw [h.read_eq hempty hrequest, h'.read_eq hempty hrequest]

/-- A value that looks like an option, one that looks like a mode, and a fault behind both. -/
theorem Options.read_interleaved_before_fault :
    Options.read [utf8 "-o", utf8 "--lang", utf8 "compile", utf8 "-v", utf8 "-", utf8 "--lang",
        utf8 "run"] =
      Options.read [utf8 "compile", utf8 "-", utf8 "-o", utf8 "--lang", utf8 "-v", utf8 "--lang",
        utf8 "run"] := by
  have houtput : OptionGroup [utf8 "-o", utf8 "--lang"] := .valued .output _
  have hlanguage : OptionGroup [utf8 "--lang", utf8 "run"] := .valued .language _
  have hverbose : OptionGroup [utf8 "-v"] :=
    .alone (by decide) fun flag => by cases flag <;> decide
  have hmode : IsPositional (utf8 "compile") := by decide
  have hinput : IsPositional (utf8 "-") := by decide
  refine Options.read_interleaved
    (.option houtput (.positional hmode (.option hverbose (.positional hinput
      (.option hlanguage .done)))))
    (.positional hmode (.positional hinput (.option houtput (.option hverbose
      (.option hlanguage .done))))) ?_
  simp only [IsRequest]
  decide

end Linewise
