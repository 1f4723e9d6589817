import Linewise.Proofs.Decimal
import Linewise.Proofs.Program.Accepted
import Linewise.Proofs.Program.DeadEmits
/-!
The optimizing builder accounts for every statement. A print becomes a literal, a comment is counted,
and an emit is either folded into the literals or dead; what is pending between two statements are
the emits that have not been counted yet.
-/
namespace Linewise

namespace Program

def emitCount (p : Program) : Nat := p.countP fun s => s.kind = .emit

def commentCount (p : Program) : Nat := p.countP fun s => s.kind = .comment

theorem emitted_append (p q : Program) : (p ++ q : Program).emitted = p.emitted ++ q.emitted := by
  rw [emitted, List.filter_append, List.flatMap_append]
  rfl

/-- Every value that is printed goes on with what is emitted after it. -/
theorem front_of_mem_printed {p : Program} {v : Bytes} (hv : v ∈ p.printed) : v <+: p.emitted := by
  obtain ⟨⟨s, k⟩, _, hs⟩ := List.mem_filterMap.mp hv
  rw [Option.ite_none_right_eq_some] at hs
  obtain rfl := Option.some.inj hs.2
  refine ⟨emitted (p.drop k), ?_⟩
  rw [← emitted_append, List.take_append_drop]

theorem printed_growing (p : Program) : p.printed.Pairwise (· <+: ·) := by
  induction p using List.reverseRecOn with
  | nil => exact .nil
  | append_singleton p s ih =>
      rw [printed_concat]
      by_cases hs : s.kind = .print
      · rw [if_pos hs, List.pairwise_append]
        refine ⟨ih, List.pairwise_singleton _ _, fun v hv w hw => ?_⟩
        rw [List.mem_singleton.mp hw]
        exact front_of_mem_printed hv
      · rw [if_neg hs, List.append_nil]
        exact ih

theorem length_trailingEmits_le (p : Program) : p.trailingEmits.length ≤ p.emitCount := by
  have hsuffix := (List.rtakeWhile_suffix (fun s : Statement => s.kind ≠ .print) p).sublist
  rw [emitCount, List.countP_eq_length_filter]
  exact (hsuffix.filter _).length_le

end Program

namespace Folding

/-- The instructions have the lines of the prints behind the builder, and what it has counted or
still has pending are the emits and the comments there. -/
structure Accounts (f : Folding) (done : Program) : Prop where
  lines : f.instrs.reverse.map (·.line) = (done.filter fun s => s.kind = .print).map (·.line)
  emits : f.stats.emitsFolded + UInt32.ofNat f.pending.length = UInt32.ofNat done.emitCount
  comments : f.stats.comments = UInt32.ofNat done.commentCount

theorem accounts_nil : Accounts {} [] := ⟨rfl, rfl, rfl⟩

theorem Accounts.step {f : Folding} {done : Program} {s : Statement} (h : f.Accounts done)
    (hs : s.kind ≠ .invalid) : ∃ f', f.step s = .ok f' ∧ f'.Accounts (done ++ [s]) := by
  have hlines : (done ++ [s]).filter (fun s => s.kind = .print) =
      done.filter (fun s => s.kind = .print) ++ if s.kind = .print then [s] else [] := by
    rw [List.filter_append, List.filter_singleton]
    simp
  have hemits : (done ++ [s] : Program).emitCount =
      done.emitCount + if s.kind = .emit then 1 else 0 := by
    rw [Program.emitCount, List.countP_append, List.countP_singleton]
    simp [Program.emitCount]
  have hcomments : (done ++ [s] : Program).commentCount =
      done.commentCount + if s.kind = .comment then 1 else 0 := by
    rw [Program.commentCount, List.countP_append, List.countP_singleton]
    simp [Program.commentCount]
  cases hk : s.kind with
  | comment =>
      refine ⟨_, step_comment f hk, ?_, ?_, ?_⟩
      · rw [hlines, if_neg (by simp [hk]), List.append_nil]
        exact h.lines
      · rw [hemits, if_neg (by simp [hk])]
        exact h.emits
      · rw [hcomments, if_pos hk, UInt32.ofNat_add, ← h.comments]
        rfl
  | emit =>
      refine ⟨_, step_emit f hk, ?_, ?_, ?_⟩
      · rw [hlines, if_neg (by simp [hk]), List.append_nil]
        exact h.lines
      · rw [hemits, if_pos hk, List.length_cons, UInt32.ofNat_add, UInt32.ofNat_add, ← h.emits,
          UInt32.add_assoc]
      · rw [hcomments, if_neg (by simp [hk])]
        exact h.comments
  | print =>
      refine ⟨_, step_print f hk, ?_, ?_, ?_⟩
      · rw [hlines, if_pos hk, List.reverse_cons, List.map_append, h.lines, List.map_append]
        rfl
      · -- What was pending is folded now.
        rw [hemits, if_neg (by simp [hk]), Nat.add_zero, ← h.emits]
        exact UInt32.add_zero _
      · rw [hcomments, if_neg (by simp [hk])]
        exact h.comments
  | invalid => exact absurd hk hs

end Folding

/-- Words are added like numbers if a word can hold the sum and one of them is part of it. -/
theorem toNat_add_of_ofNat_eq {v : UInt32} {n total : Nat}
    (hsum : v + UInt32.ofNat n = UInt32.ofNat total) (hle : n ≤ total)
    (hsize : total < UInt32.size) : v.toNat + n = total := by
  have hword := congrArg UInt32.toNat hsum
  have hv : v.toNat < UInt32.size := v.toNat_lt
  rw [UInt32.toNat_add, UInt32.toNat_ofNat_of_lt' (by omega), UInt32.toNat_ofNat_of_lt' hsize] at hword
  change (v.toNat + n) % UInt32.size = total at hword
  by_cases hlt : v.toNat + n < UInt32.size
  · rwa [Nat.mod_eq_of_lt hlt] at hword
  · rw [Nat.mod_eq_sub_mod (Nat.not_lt.mp hlt), Nat.mod_eq_of_lt (by omega)] at hword
    omega

/-- Where the pending emits are the dead ones, no count has run over. -/
theorem Folding.Accounts.counts {f : Folding} {p : Program} (h : f.Accounts p)
    (hpending : f.pending.length = p.trailingEmits.length) (hsize : p.length < UInt32.size) :
    f.finish.stats.emitsFolded.toNat + f.finish.stats.deadEmits.toNat = p.emitCount ∧
      f.finish.stats.deadEmits.toNat = p.trailingEmits.length ∧
      f.finish.stats.comments.toNat = p.commentCount := by
  have hemits : p.emitCount < UInt32.size := Nat.lt_of_le_of_lt List.countP_le_length hsize
  have hcomments : p.commentCount < UInt32.size := Nat.lt_of_le_of_lt List.countP_le_length hsize
  have hle : f.pending.length ≤ p.emitCount := hpending ▸ p.length_trailingEmits_le
  have hdead : f.finish.stats.deadEmits.toNat = f.pending.length :=
    UInt32.toNat_ofNat_of_lt' (Nat.lt_of_le_of_lt hle hemits)
  have hcount : f.finish.stats.comments = UInt32.ofNat p.commentCount := h.comments
  refine ⟨?_, hdead.trans hpending, ?_⟩
  · rw [hdead]
    exact toNat_add_of_ofNat_eq h.emits hle hemits
  · rw [hcount, UInt32.toNat_ofNat_of_lt' hcomments]

/-- The listing has a literal for every print, and its counts are those of the emits that a print
takes up, of the emits that none does, and of the comments. -/
structure Listing.Folds (l : Listing) (p : Program) : Prop where
  optimized : l.optimized = true
  literals : l.instrs.map (·.op) = p.printed.map .printLiteral
  lines : l.instrs.map (·.line) = (p.filter fun s => s.kind = .print).map (·.line)
  growing : (l.instrs.filterMap (·.op.literal?)).Pairwise (· <+: ·)
  verified : l.verify .optimized = []
  emits : l.stats.emitsFolded.toNat + l.stats.deadEmits.toNat = p.emitCount
  dead : l.stats.deadEmits.toNat = p.trailingEmits.length
  comments : l.stats.comments.toNat = p.commentCount

theorem Listing.literals_of_ops {l : Listing} {values : List Bytes}
    (h : l.instrs.map (·.op) = values.map .printLiteral) :
    l.instrs.filterMap (·.op.literal?) = values := by
  have hliterals := congrArg (List.filterMap Op.literal?) h
  rw [List.filterMap_map, List.filterMap_map] at hliterals
  exact hliterals.trans List.filterMap_some

/-- The diagnostic warns that the statement is a dead emit. -/
structure Diagnostic.WarnsOf (d : Diagnostic) (s : Statement) : Prop where
  severity : d.severity = .warning
  finding : d.finding = .deadTrailingEmit
  span : d.span = s.span
  args : s.line.toNat < UInt32.size / 2 → d.args = [Decimal.ofNat s.line.toNat]

theorem Diagnostic.warnsOf_deadEmit (s : Statement) : (deadEmit s).WarnsOf s :=
  ⟨rfl, rfl, rfl, fun h => by rw [deadEmit, Decimal.ofSignedWord_of_lt h]⟩

namespace Program

/-- A valid program is folded to its end, where the emits after the last print are still pending. -/
theorem buildOptimized_folding {p : Program} (hv : p.Valid) (warn : Bool) (bag : Option Bag) :
    ∃ f : Folding, (p.buildOptimized warn bag).1 = .ok f.finish ∧ f.Accounts p ∧
      f.pending.length = p.trailingEmits.length := by
  obtain ⟨f, hf, haccounts⟩ := foldlM_valid (fun _ _ _ h hs => Folding.Accounts.step h hs) hv
    Folding.accounts_nil
  have hstart : Folding.Leaves {} [] := rfl
  obtain ⟨f', hf', hleaves⟩ := foldlM_valid (fun _ _ _ h hs => Folding.Leaves.step h hs) hv hstart
  obtain rfl := Except.ok.inj (hf.symm.trans hf')
  refine ⟨f, by rw [buildOptimized, hf], haccounts, ?_⟩
  rw [← List.length_reverse, hleaves]
  rfl

theorem buildOptimized_folds {p : Program} (hv : p.Valid) (hsize : p.length < UInt32.size)
    (warn : Bool) (bag : Option Bag) :
    ∃ l, (p.buildOptimized warn bag).1 = .ok l ∧ l.Folds p := by
  obtain ⟨f, hbuilt, haccounts, hpending⟩ := buildOptimized_folding hv warn bag
  obtain ⟨l, hl, hliterals⟩ := buildOptimized_valid hv warn bag
  obtain rfl := Except.ok.inj (hbuilt.symm.trans hl)
  obtain ⟨l, hl, hoptimized, haccepted⟩ := buildOptimized_accepted hv warn bag
  obtain rfl := Except.ok.inj (hbuilt.symm.trans hl)
  obtain ⟨hemits, hdead, hcomments⟩ := haccounts.counts hpending hsize
  have hgrowing : (f.finish.instrs.filterMap (·.op.literal?)).Pairwise (· <+: ·) := by
    rw [Listing.literals_of_ops hliterals]
    exact p.printed_growing
  exact ⟨_, hbuilt, hoptimized, hliterals, haccounts.lines, hgrowing, haccepted, hemits, hdead,
    hcomments⟩

/-- The optimizing builder keeps every print, counts every other statement, and warns of the emits
after the last print in order. -/
theorem buildOptimized_accounts {p : Program} (hv : p.Valid) (hsize : p.length < UInt32.size)
    (warn : Bool) (bag : Option Bag) :
    ∃ l ds, p.buildOptimized warn bag = (.ok l, bag.map (·.report ds)) ∧ l.Folds p ∧
      if warn then List.Forall₂ Diagnostic.WarnsOf ds p.trailingEmits else ds = [] := by
  obtain ⟨l, hl, hfolds⟩ := buildOptimized_folds hv hsize warn bag
  have hbag := buildOptimized_reports hv warn bag
  refine ⟨l, if warn then p.trailingEmits.map .deadEmit else [], Prod.ext hl hbag, hfolds, ?_⟩
  cases warn with
  | false => rfl
  | true =>
      rw [if_pos rfl, if_pos rfl, List.forall₂_map_left_iff]
      exact List.forall₂_same.mpr fun s _ => Diagnostic.warnsOf_deadEmit s

/-- Two emits after the last print, with a comment between them. -/
theorem buildOptimized_accounts_of_two_dead_emits :
    let p := Program.ofLines [utf8 "a", utf8 "b", utf8 "p", utf8 "c", utf8 "# d", utf8 "e"]
    p.Valid ∧ p.length < UInt32.size ∧
      ∃ l ds, p.buildOptimized true (some {}) = (.ok l, some ⟨ds⟩) ∧ l.Folds p ∧
        l.stats = ⟨2, 2, 1⟩ ∧ List.Forall₂ Diagnostic.WarnsOf ds p.trailingEmits ∧
        ds.map (·.args) = [[utf8 "4"], [utf8 "6"]] := by
  intro p
  have hv : p.Valid := by decide
  have hsize : p.length < UInt32.size := by decide
  obtain ⟨l, ds, hbuilt, hfolds, hwarns⟩ := buildOptimized_accounts hv hsize true (some {})
  have hresult : p.buildOptimized true (some {}) =
      (.ok { instrs := [⟨.printLiteral (utf8 "ab"), 3⟩], optimized := true, stats := ⟨2, 2, 1⟩ },
        some ⟨[⟨.warning, .deadTrailingEmit, ⟨0, 6, 7⟩, [utf8 "4"]⟩,
          ⟨.warning, .deadTrailingEmit, ⟨0, 12, 13⟩, [utf8 "6"]⟩]⟩) := by decide +kernel
  have hboth := Prod.ext_iff.mp (hbuilt.symm.trans hresult)
  obtain rfl := Except.ok.inj hboth.1
  obtain rfl := congrArg Bag.diagnostics (Option.some.inj hboth.2)
  exact ⟨hv, hsize, _, _, hbuilt, hfolds, rfl, hwarns, rfl⟩

end Program
end Linewise
