import Linewise.Proofs.Program.Printed
/-!
Where a program becomes invalid. Everything that can fail on a program is compared with its first
invalid statement: the part before it is what was done in good faith, the rest is never looked at.
-/
namespace Linewise.Program

/-- Position `k` holds the first invalid statement, and `e` is the failure that it causes. -/
def FirstInvalid (p : Program) (k : Nat) (e : InvalidStatement) : Prop :=
  ∃ s, p[k]? = some s ∧ s.kind = .invalid ∧ e = ⟨s.line, s.span⟩ ∧ Valid (p.take k)

theorem FirstInvalid.split {p : Program} {k : Nat} {e : InvalidStatement}
    (h : p.FirstInvalid k e) : ∃ s rest, p = p.take k ++ s :: rest ∧ s.kind = .invalid ∧
      e = ⟨s.line, s.span⟩ ∧ Valid (p.take k) := by
  obtain ⟨s, hs, hk, he, hv⟩ := h
  obtain ⟨hlt, hget⟩ := List.getElem?_eq_some_iff.mp hs
  refine ⟨s, p.drop (k + 1), ?_, hk, he, hv⟩
  rw [← hget, ← List.drop_eq_getElem_cons hlt, List.take_append_drop]

theorem firstInvalid_append {front : Program} {s : Statement} {rest : Program}
    (hv : Valid front) (hs : s.kind = .invalid) :
    FirstInvalid (front ++ s :: rest) front.length ⟨s.line, s.span⟩ := by
  refine ⟨s, ?_, hs, rfl, ?_⟩
  · rw [List.getElem?_append_right (Nat.le_refl _), Nat.sub_self]
    rfl
  · rw [List.take_left' rfl]
    exact hv

theorem firstInvalid?_eq_none_iff (p : Program) : p.firstInvalid? = none ↔ p.Valid := by
  simp only [firstInvalid?, Option.map_eq_none_iff, List.find?_eq_none, decide_eq_true_eq, Valid,
    ne_eq]

theorem firstInvalid?_eq_some_iff (p : Program) (e : InvalidStatement) :
    p.firstInvalid? = some e ↔ ∃ k, p.FirstInvalid k e := by
  constructor
  · intro h
    obtain ⟨s, hs, rfl⟩ := Option.map_eq_some_iff.mp h
    obtain ⟨hk, front, rest, rfl, hfront⟩ := List.find?_eq_some_iff_append.mp hs
    have hv : Valid front := fun x hx => by simpa using hfront x hx
    exact ⟨_, firstInvalid_append hv (of_decide_eq_true hk)⟩
  · rintro ⟨k, h⟩
    obtain ⟨s, rest, hp, hs, rfl, hv⟩ := h.split
    rw [firstInvalid?, hp]
    have hfront : (p.take k).find? (fun s => s.kind = .invalid) = none :=
      List.find?_eq_none.mpr fun x hx => by simpa using hv x hx
    rw [List.find?_append, hfront, Option.none_or, List.find?_cons, decide_eq_true hs]
    rfl

theorem valid_or_firstInvalid (p : Program) : p.Valid ∨ ∃ k e, p.FirstInvalid k e := by
  cases h : p.firstInvalid? with
  | none => exact .inl ((firstInvalid?_eq_none_iff p).mp h)
  | some e =>
      obtain ⟨k, hk⟩ := (firstInvalid?_eq_some_iff p e).mp h
      exact .inr ⟨k, e, hk⟩

theorem FirstInvalid.not_valid {p : Program} {k : Nat} {e : InvalidStatement}
    (h : p.FirstInvalid k e) : ¬ p.Valid := by
  obtain ⟨s, hs, hk, _⟩ := h
  intro hv
  exact hv s (List.mem_of_getElem? hs) hk

theorem FirstInvalid.mem {p : Program} {k : Nat} {e : InvalidStatement}
    (h : p.FirstInvalid k e) : ∃ s ∈ p, s.kind = .invalid := by
  obtain ⟨s, hs, hk, _⟩ := h
  exact ⟨s, List.mem_of_getElem? hs, hk⟩

theorem FirstInvalid.unique {p : Program} {k k' : Nat} {e e' : InvalidStatement}
    (h : p.FirstInvalid k e) (h' : p.FirstInvalid k' e') : e = e' := by
  have hsome := (firstInvalid?_eq_some_iff p e).mpr ⟨k, h⟩
  have hsome' := (firstInvalid?_eq_some_iff p e').mpr ⟨k', h'⟩
  exact Option.some.inj (hsome.symm.trans hsome')

theorem Valid.no_firstInvalid {p : Program} (hv : p.Valid) (e : InvalidStatement) :
    ¬ ∃ k, p.FirstInvalid k e :=
  fun ⟨_, h⟩ => h.not_valid hv

theorem Valid.no_invalid {p : Program} (hv : p.Valid) : ¬ ∃ s ∈ p, s.kind = .invalid :=
  fun ⟨s, hs, hk⟩ => hv s hs hk

end Linewise.Program
