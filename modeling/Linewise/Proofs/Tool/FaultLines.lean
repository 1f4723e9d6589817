import Linewise.Proofs.Listing.Faults
import Linewise.Proofs.Source.Breaks
import Linewise.Proofs.Tool.Listings
/-!
Where the faults of a listing are shown. The reader goes by line feeds and takes a carriage return
for a blank, while the tool looks a fault up under the universal rule, to which a carriage return on
its own ends a line. The two count the same line exactly if there is none before the fault.
-/
namespace Linewise

/-- A fault at the very end of a text lies behind a word. -/
theorem LineReading.PointsInto.getLast?_ne {s : Bytes} {ps : List Piece}
    (hcut : Newline.lf.Cut s ps) {k : Nat} {p : Piece} (hp : ps[k]? = some p) {i : Nat}
    (h : PointsInto p.text i) (hend : Piece.offset ps k + i = s.length) :
    ∀ b ∈ s.getLast?, b ≠ Byte.cr ∧ b ≠ Byte.lf := by
  have htext := hcut.text_end_le hp
  rcases h with hlt | ⟨hi, c, hc, hword⟩
  · omega
  · have hpos : 0 < p.text.length := List.length_pos_iff.mpr fun hnil => by simp [hnil] at hc
    have hlast : s.getLast? = p.text.getLast? := by
      rw [List.getLast?_eq_getElem?, List.getLast?_eq_getElem?,
        ← hcut.getElem?_offset hp (Nat.sub_lt hpos Nat.one_pos)]
      congr 1
      omega
    have hfree : Byte.lf ∉ p.text := hcut.free p (List.mem_of_getElem? hp)
    intro b hb
    obtain rfl := Option.some.inj (hc.symm.trans (hlast ▸ hb))
    refine ⟨?_, ?_⟩
    · rintro rfl
      exact absurd hword (by decide)
    · rintro rfl
      exact hfree (List.mem_of_getLast? hc)

/-- The line that a fault starts on counts the line feeds before it. It is shown as many lines later
as there are carriage returns on their own before it. -/
theorem Diagnostic.StartsOn.line {d : Diagnostic} {content : Bytes} {file : UInt32} {l : Line}
    (h : d.StartsOn file l) (hl : l ∈ Newline.lf.split content)
    (hsize : content.length < UInt32.size) (name : Bytes) :
    l.number.toNat = (content.take d.span.lo.toNat).count Byte.lf + 1 ∧
      ((⟨name, content, .universal⟩ : SourceFile).locate d.span.lo).line.toNat =
        l.number.toNat + loneReturns d.span.lo.toNat content := by
  have hcut := Newline.lf.cut_pieces content
  obtain ⟨k, p, hp, rfl⟩ := Newline.exists_piece_of_mem_split hl
  obtain ⟨i, hlo, hinto⟩ := h.start
  have hi : i ≤ p.text.length := hinto.elim Nat.le_of_lt fun hend => Nat.le_of_eq hend.1
  have htext := hcut.text_end_le hp
  have hstart := hcut.toNat_start hp hsize
  have hoffset : d.span.lo.toNat = Piece.offset (Newline.lf.pieces content) k + i := by
    rw [hlo, toNat_add_ofNat (by omega), hstart]
  have hcount : (content.take d.span.lo.toNat).count Byte.lf = k := by
    rw [hoffset]
    exact hcut.count_lf hp hi
  have hne : content ≠ [] :=
    List.length_pos_iff.mp (Nat.lt_of_lt_of_le k.succ_pos (hcut.number_le hp))
  have hle : d.span.lo.toNat ≤ content.length := by omega
  have hlocated := SourceFile.locate_universal name hsize hne hle fun hend =>
    hinto.getLast?_ne hcut hp (hoffset ▸ hend)
  rw [hcut.toNat_number hp hsize, hlocated, universalBreaks, hcount]
  exact ⟨rfl, Nat.add_right_comm _ _ _⟩

namespace Tool

/-- The diagnostic starts on a line of the reader, which counts the line feeds before it, and the row
that says where it is has the number of that line exactly if every carriage return before it has a
line feed behind it. -/
structure LocatedOn (d : Diagnostic) (f : SourceFile) (l : Line) : Prop where
  starts : d.StartsOn 0 l
  number : l.number.toNat = (f.content.take d.span.lo.toNat).count Byte.lf + 1
  row : ∀ language context, ∃ heading excerpt, d.render language [f] context =
    heading ++ locationRow f.name (f.locate d.span.lo).line (f.locate d.span.lo).column ++ excerpt
  shown_iff : (f.locate d.span.lo).line = l.number ↔
    ∀ i < d.span.lo.toNat, f.content[i]? = some Byte.cr → f.content[i + 1]? = some Byte.lf

theorem render_row (language : Language) (f : SourceFile) (context : UInt32) {d : Diagnostic}
    (hfile : d.span.file = 0) : ∃ heading excerpt, d.render language [f] context =
      heading ++ locationRow f.name (f.locate d.span.lo).line (f.locate d.span.lo).column ++
        excerpt := by
  obtain ⟨excerpt, hrender⟩ := heading_prefix language [f] context d
  have hf : SourceMap.file [f] d.span.file = f := by
    rw [hfile]
    rfl
  rw [heading_eq, hf, List.append_assoc] at hrender
  exact ⟨_, _, hrender.symm⟩

theorem locatedOn_of_startsOn {d : Diagnostic} {content : Bytes} {l : Line}
    (hsize : content.length < UInt32.size) (name : Bytes) (hl : l ∈ Newline.lf.split content)
    (h : d.StartsOn 0 l) : LocatedOn d ⟨name, content, .universal⟩ l := by
  obtain ⟨hnumber, hshown⟩ := h.line hl hsize name
  refine ⟨h, hnumber, fun language context => render_row language _ context h.file, ?_⟩
  rw [← UInt32.toNat_inj, hshown, ← loneReturns_eq_zero_iff]
  exact Nat.add_eq_left

variable {h : Host} {o : Options} {content : Bytes}

/-- What the reader reports of a refused listing is shown at the end of the run, on the lines that the
reader went by as long as no carriage return stands on its own. Only a missing halt is about no
line. -/
theorem faults_located_iff (ht : TakesListing h o content) (hsize : content.length < UInt32.size)
    (hrejected : (Listing.read content 0 none).1 = none) :
    ∃ ds : List Diagnostic,
      runInput h o =
        { exit := 1
          stdout := []
          stderr := o.warnings.flatMap (note "warning") ++ (RunSettings.load h.disk h.env o).2 ++
            display (settings h o) [sourceFile h o content .universal] ds
          disk := h.disk } ∧
      Listing.read content 0 (some {}) = (none, some ⟨ds⟩) ∧
      ∀ d ∈ ds, d.finding ≠ .missingHalt → ∃ l ∈ Newline.lf.split content,
        LocatedOn d (sourceFile h o content .universal) l := by
  refine ⟨_, runInput_rejected ht hrejected, ?_, ?_⟩
  · exact Prod.ext hrejected rfl
  · intro d hd hfinding
    obtain ⟨l, hl, hstarts⟩ := Listing.startsOn_of_read hd hfinding
    exact ⟨l, hl, locatedOn_of_startsOn hsize _ hl hstarts⟩

/-- Each line ends with a carriage return and a line feed. -/
theorem faults_located_iff_of_paired_returns :
    let content := utf8 "; a\r\nfoo\r\nhalt\r\n"
    let h : Host := ⟨⟨⟨[([utf8 "a"], .file content)]⟩, []⟩, [], utf8 "1"⟩
    let o : Options := { mode := .run, input := utf8 "a", noConfig := true }
    TakesListing h o content ∧ content.length < UInt32.size ∧
      (Listing.read content 0 none).1 = none ∧ (runInput h o).exit = 1 ∧
      ((sourceFile h o content .universal).locate 5).line = 2 := by
  intro content h o
  have ht : TakesListing h o content := ⟨rfl, rfl⟩
  have hsize : content.length < UInt32.size := by decide
  have hrejected : (Listing.read content 0 none).1 = none := by decide +kernel
  let d : Diagnostic := ⟨.error, .unknownOpcode, ⟨0, 5, 8⟩, [utf8 "foo"]⟩
  have hfound : Listing.read content 0 (some {}) = (none, some ⟨[d]⟩) := by decide +kernel
  obtain ⟨ds, hrun, hread, hlocated⟩ := faults_located_iff ht hsize hrejected
  have hds : [d] = ds :=
    congrArg Bag.diagnostics (Option.some.inj (congrArg Prod.snd (hfound.symm.trans hread)))
  obtain ⟨l, _, hd⟩ := hlocated d (hds ▸ List.mem_singleton_self d) (by decide)
  have hpaired : ∀ i < d.span.lo.toNat,
      content[i]? = some Byte.cr → content[i + 1]? = some Byte.lf := by decide
  refine ⟨ht, hsize, hrejected, by rw [hrun], ?_⟩
  have hline : ((sourceFile h o content .universal).locate 5).line = l.number :=
    hd.shown_iff.mpr hpaired
  have hnumber : l.number.toNat = 2 := hd.number.trans (by decide)
  rw [hline, ← UInt32.toNat_inj, hnumber]
  rfl

/-- The reader is on its second line, but the location says the third. -/
theorem fault_located_past_its_line :
    let content := utf8 "; a\r; b\nfoo\nhalt\n"
    let h : Host := ⟨⟨⟨[([utf8 "a"], .file content)]⟩, []⟩, [], utf8 "1"⟩
    let o : Options := { mode := .run, input := utf8 "a", noConfig := true }
    let d : Diagnostic := ⟨.error, .unknownOpcode, ⟨0, 8, 11⟩, [utf8 "foo"]⟩
    TakesListing h o content ∧ Listing.read content 0 (some {}) = (none, some ⟨[d]⟩) ∧
      (runInput h o).stderr = display (settings h o) [sourceFile h o content .universal] [d] ∧
      (content.take d.span.lo.toNat).count Byte.lf + 1 = 2 ∧
      ((sourceFile h o content .universal).locate d.span.lo).line = 3 := by
  intro content h o d
  have hfound : Listing.read content 0 (some {}) = (none, some ⟨[d]⟩) := by decide +kernel
  have hrejected : (Listing.read content 0 none).1 = none := congrArg Prod.fst hfound
  have hloaded : (RunSettings.load h.disk h.env o).2 = [] := rfl
  have ht : TakesListing h o content := ⟨rfl, rfl⟩
  refine ⟨ht, hfound, ?_, by decide, by decide +kernel⟩
  rw [runInput_rejected ht hrejected, hfound, hloaded]
  exact List.nil_append _

end Tool
end Linewise
