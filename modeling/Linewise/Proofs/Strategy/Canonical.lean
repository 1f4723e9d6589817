import Linewise.Proofs.Strategy.Agreement
/-!
The optimized artifact as a name of what a program prints. A text decides the normal form of its
listing, and the normal form of an optimized listing is its literals, so nothing but the printed
values reaches the text and all of them do.
-/
namespace Linewise

namespace Listing

theorem write_eq_iff (l m : Listing) : l.write = m.write ↔ l.normal = m.normal := by
  constructor
  · intro h
    have hread := m.read_write 0 none
    rw [← h, l.read_write 0 none] at hread
    exact Option.some.inj (congrArg Prod.fst hread)
  · intro h
    rw [← l.write_normal, h, m.write_normal]

theorem writtenOps_of_literals {l : Listing} {values : List Bytes}
    (h : l.instrs.map (·.op) = values.map .printLiteral) :
    l.writtenOps = values.map .printLiteral ++ [.halt] := by
  have hlive : l.live = l.instrs := by
    rw [live, List.takeWhile_eq_self_iff]
    intro i hi
    have hop : i.op ∈ values.map Op.printLiteral := h ▸ List.mem_map_of_mem hi
    obtain ⟨value, _, hvalue⟩ := List.mem_map.mp hop
    simp [← hvalue]
  rw [writtenOps, hlive, h]

end Listing

namespace Program

theorem buildOptimized_optimized {p : Program} {warn : Bool} {bag : Option Bag} {l : Listing}
    (h : (p.buildOptimized warn bag).1 = .ok l) : l.optimized = true := by
  unfold buildOptimized at h
  split at h
  · cases h
  · cases h
    rfl

theorem buildOptimized_normal {p : Program} (hv : p.Valid) (warn : Bool) (bag : Option Bag) :
    ∃ l, (p.buildOptimized warn bag).1 = .ok l ∧
      l.normal =
        { instrs := (p.printed.map Op.printLiteral ++ [Op.halt]).map (⟨·, 0⟩)
          optimized := true } := by
  obtain ⟨l, hl, hliterals⟩ := buildOptimized_valid hv warn bag
  refine ⟨l, hl, ?_⟩
  rw [Listing.normal, Listing.writtenOps_of_literals hliterals, buildOptimized_optimized hl]

/-- Two valid programs have the same optimized text exactly if they print the same values. -/
theorem optimized_text_canonical {p q : Program} (hp : p.Valid) (hq : q.Valid)
    (warn warn' : Bool) (bag bag' : Option Bag) :
    ∃ l m, (p.buildOptimized warn bag).1 = .ok l ∧ (q.buildOptimized warn' bag').1 = .ok m ∧
      (l.write = m.write ↔ p.interpret.outputs = q.interpret.outputs) := by
  obtain ⟨l, hl, hlnormal⟩ := buildOptimized_normal hp warn bag
  obtain ⟨m, hm, hmnormal⟩ := buildOptimized_normal hq warn' bag'
  refine ⟨l, m, hl, hm, ?_⟩
  rw [Listing.write_eq_iff, hlnormal, hmnormal, interpret_valid hp, interpret_valid hq]
  constructor
  · intro h
    have hinstrs := congrArg (fun l => l.instrs.map (·.op)) h
    simp only [List.map_map, Function.comp_def, List.map_id', List.append_cancel_right_eq]
      at hinstrs
    have hinjective : Function.Injective Op.printLiteral := fun a b hab => Op.printLiteral.inj hab
    exact (List.map_injective_iff.mpr hinjective) hinstrs
  · intro h
    have hprinted : p.printed = q.printed := h
    rw [hprinted]

theorem optimized_text_canonical_of_split_emits :
    Valid (ofLines [utf8 "ab", utf8 "p"]) ∧
      Valid (ofLines [utf8 "a", utf8 "# note", utf8 "b", utf8 "p", utf8 "c"]) ∧
      ∃ l m, ((ofLines [utf8 "ab", utf8 "p"]).buildOptimized false none).1 = .ok l ∧
        ((ofLines [utf8 "a", utf8 "# note", utf8 "b", utf8 "p", utf8 "c"]).buildOptimized
          true (some {})).1 = .ok m ∧ l.write = m.write := by
  have hp : Valid (ofLines [utf8 "ab", utf8 "p"]) := by decide
  have hq : Valid (ofLines [utf8 "a", utf8 "# note", utf8 "b", utf8 "p", utf8 "c"]) := by decide
  obtain ⟨l, m, hl, hm, h⟩ := optimized_text_canonical hp hq false true none (some {})
  refine ⟨hp, hq, l, m, hl, hm, h.mpr ?_⟩
  rw [interpret_valid hp, interpret_valid hq]
  decide

end Program
end Linewise
