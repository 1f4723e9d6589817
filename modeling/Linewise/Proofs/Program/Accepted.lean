import Linewise.Proofs.Listing.Placement
import Linewise.Proofs.Strategy.Canonical
/-!
The listings that the builders make are well-formed, as strictly as they claim, and they stay so
when they go through their text. So whatever verifies a built listing before it uses it never
refuses it.
-/
namespace Linewise

namespace Listing

/-- The listing is well-formed, as strictly as it claims. -/
def Accepted (l : Listing) : Prop := l.verify l.strictness = []

theorem Accepted.lower {l : Listing} (h : l.Accepted) (header : AssemblyHeader) :
    ∃ text, l.lower header = .ok text := by
  have hverify : l.verify l.strictness = [] := h
  refine ⟨header.write ++ (Assembly.ofListing l).code, ?_⟩
  rw [Listing.lower, hverify]
  rfl

theorem Accepted.normal {l : Listing} (h : l.Accepted) : l.normal.Accepted := by
  have hplaced := placed_of_misplacedFrom h
  refine verify_of_placed_halt l.instrs_normal rfl ?_
  intro j hj
  obtain ⟨i, hi, rfl⟩ := List.mem_map.mp hj
  exact hplaced i hi

end Listing

namespace Program

theorem build_accepted {p : Program} (hv : p.Valid) :
    ∃ l, p.build = .ok l ∧ l.optimized = false ∧ l.Accepted := by
  obtain ⟨l, hl, hinstrs⟩ := build_valid hv
  have hplain : l.optimized = false := by
    unfold build at hl
    cases hpass : p.foldlM Draft.step {} with
    | error e => rw [hpass] at hl; cases hl
    | ok d => rw [hpass] at hl; cases hl; rfl
  refine ⟨l, hl, hplain, Listing.verify_of_placed ?_⟩
  rw [hinstrs, Listing.strictness, hplain]
  intro i hi
  obtain ⟨s, _, hs⟩ := List.mem_filterMap.mp hi
  have hop : i.op ≠ .halt := by
    unfold Statement.instr? at hs
    split at hs
    · cases hs; simp
    · cases hs; simp
    · cases hs
    · cases hs
  exact Op.placed_any hop

theorem buildOptimized_accepted {p : Program} (hv : p.Valid) (warn : Bool) (bag : Option Bag) :
    ∃ l, (p.buildOptimized warn bag).1 = .ok l ∧ l.optimized = true ∧ l.Accepted := by
  obtain ⟨l, hl, hliterals⟩ := buildOptimized_valid hv warn bag
  refine ⟨l, hl, buildOptimized_optimized hl, Listing.verify_of_placed ?_⟩
  intro i hi
  have hop : i.op ∈ p.printed.map Op.printLiteral := hliterals ▸ List.mem_map_of_mem hi
  obtain ⟨value, _, hvalue⟩ := List.mem_map.mp hop
  rw [← hvalue]
  exact Op.placed_printLiteral _ value

theorem buildWith_accepted {p : Program} (hv : p.Valid) (optimize warn : Bool) (bag : Option Bag) :
    ∃ l, (p.buildWith optimize warn bag).1 = .ok l ∧ l.optimized = optimize ∧ l.Accepted := by
  cases optimize with
  | false => exact build_accepted hv
  | true => exact buildOptimized_accepted hv warn bag

theorem accepted_of_buildWith {p : Program} {optimize warn : Bool} {bag : Option Bag}
    {l : Listing} (h : (p.buildWith optimize warn bag).1 = .ok l) :
    l.optimized = optimize ∧ l.Accepted := by
  rcases p.valid_or_firstInvalid with hv | ⟨k, e, he⟩
  · obtain ⟨l', hl', haccepted⟩ := buildWith_accepted hv optimize warn bag
    obtain rfl := Except.ok.inj (h.symm.trans hl')
    exact haccepted
  · rw [buildWith_firstInvalid he] at h
    cases h

end Program
end Linewise
