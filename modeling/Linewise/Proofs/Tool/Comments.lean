import Linewise.Proofs.Listing.Comments
import Linewise.Proofs.Tool.Listings
/-!
Comments and the runs of a listing. A comment line that leaves what is read unchanged leaves the run
unchanged; one that is taken for the marker can make the verification refuse what it accepted before.
-/
namespace Linewise

namespace Tool

/-- A comment line that is put into a text or taken out of it never changes the instructions. It
leaves the whole of what is read unchanged, and then also what a run prints and how it exits, exactly
if it does not start as the marker, stands behind an instruction, or the listing is declared optimized
without it. -/
theorem comment_neutral_iff {text text' : Bytes} {front : List Bytes} {comment : Bytes}
    {back : List Bytes} (hc : Listing.Commented text text' front comment back) (file : UInt32)
    (bag : Option Bag)
    (haccepted : (Listing.read text file bag).1.isSome ∨ (Listing.read text' file bag).1.isSome) :
    ∃ l l' : Listing, Listing.read text file bag = (some l, bag) ∧
      Listing.read text' file bag = (some l', bag) ∧ l'.instrs = l.instrs ∧
      (l' = l ↔ (Marked comment → (∀ line ∈ front, Filler line) → l.optimized = true)) ∧
      (l' = l → ∀ h o h' o', TakesListing h o text → TakesListing h' o' text' →
        (runInput h' o').exit = (runInput h o).exit ∧
          (runInput h' o').stdout = (runInput h o).stdout) := by
  obtain ⟨raised, hread', hraised⟩ := hc.read_eq file bag
  have hsome : (Listing.read text file bag).1.isSome := by
    refine haccepted.elim id fun h => ?_
    rwa [hread', Option.isSome_map] at h
  obtain ⟨l, hl⟩ := Option.isSome_iff_exists.mp hsome
  have hl' : (Listing.read text' file bag).1 =
      some (l.raise raised) := by
    rw [hread', hl]
    rfl
  refine ⟨l, _, Listing.read_eq_of_read hl, Listing.read_eq_of_read hl', rfl, ?_, ?_⟩
  · rw [Listing.raise_eq_self_iff, hraised hsome, and_imp]
  · intro heq h o h' o' ht ht'
    refine runInput_congr ht' ht ?_
    rw [Listing.read_congr rfl file 0 bag none, Listing.read_congr rfl file 0 bag none, hl, hl', heq]

/-- The comment starts as the marker, but an instruction stands before it. -/
theorem comment_neutral_iff_behind_append :
    let front := utf8 "append \"a\"\n"
    let back := utf8 "print\nhalt\n"
    let comment := utf8 "; optimized so far"
    let text := front ++ back
    let text' := front ++ (comment ++ Byte.lf :: back)
    let host (content : Bytes) : Host := ⟨⟨⟨[([utf8 "a"], .file content)]⟩, []⟩, [], utf8 "1"⟩
    let o : Options := { mode := .run, input := utf8 "a", noConfig := true }
    Listing.Commented text text' [utf8 "append \"a\""] comment [utf8 "print", utf8 "halt"] ∧
      (Listing.read text 0 none).1.isSome ∧
      Listing.read text' 0 none = Listing.read text 0 none ∧
      (runInput (host text') o).exit = (runInput (host text) o).exit ∧
      (runInput (host text') o).stdout = (runInput (host text) o).stdout := by
  intro front back comment text text' host o
  have hc : Listing.Commented text text' _ comment _ :=
    Listing.commented_of_insert (.inr (by decide)) (by decide) rfl
  have hfront : Newline.lfLines front = [utf8 "append \"a\""] := by decide +kernel
  have hback : Newline.lfLines back = [utf8 "print", utf8 "halt"] := by decide +kernel
  rw [hfront, hback] at hc
  have haccepted : (Listing.read text 0 none).1.isSome := by decide +kernel
  obtain ⟨l, l', hread, hread', _, hneutral, hruns⟩ := comment_neutral_iff hc 0 none (.inl haccepted)
  have hinstruction : ¬ Filler (utf8 "append \"a\"") := fun hfiller =>
    absurd (LineReading.meaning_ofLine_filler hfiller) (by decide +kernel)
  have heq : l' = l := hneutral.mpr fun _ hfiller =>
    absurd (hfiller _ (List.mem_singleton_self _)) hinstruction
  obtain ⟨hexit, hstdout⟩ := hruns heq (host text) o (host text') o ⟨rfl, rfl⟩ ⟨rfl, rfl⟩
  exact ⟨hc, haccepted, by rw [hread, hread', heq], hexit, hstdout⟩

/-- A comment that starts as the marker but is another line makes the tool refuse the text. -/
theorem comment_taken_for_marker :
    let text := utf8 "append \"a\"\nprint\nhalt\n"
    let comment := utf8 "; optimized by hand"
    let text' := comment ++ Byte.lf :: text
    let host (content : Bytes) : Host := ⟨⟨⟨[([utf8 "a"], .file content)]⟩, []⟩, [], utf8 "1"⟩
    let o : Options := { mode := .run, input := utf8 "a", noConfig := true }
    comment ≠ Listing.marker ∧ comment.head? = some Byte.semicolon ∧
      Newline.lfLines text' = comment :: Newline.lfLines text ∧
      (Listing.read text 0 none).1.map (·.optimized) = some false ∧
      (Listing.read text' 0 none).1.map (·.optimized) = some true ∧
      (runInput (host text) o).exit = 0 ∧ (runInput (host text) o).stdout = utf8 "a\n" ∧
      (runInput (host text') o).exit = 1 ∧ (runInput (host text') o).stdout = [] := by
  intro text comment text' host o
  refine ⟨by decide, rfl, Newline.lfLines_append (by decide) text, ?_, ?_, ?_, ?_, ?_, ?_⟩
  · decide +kernel
  · decide +kernel
  · decide +kernel
  · decide +kernel
  · decide +kernel
  · decide +kernel

end Tool
end Linewise
