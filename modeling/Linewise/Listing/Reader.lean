import Linewise.Listing.Text
/-!
The reader of a listing's text goes from line to line and does not stop at a fault, so one pass
reports everything that is wrong. Any fault refuses the whole text.
-/
namespace Linewise

/-- The reader between two lines. Instructions and diagnostics are kept latest first. -/
structure Reader where
  instrs : List Instr := []
  optimized : Bool := false
  halted : Bool := false
  /-- Whether content after the halt was reported. -/
  trailing : Bool := false
  ok : Bool := true
  found : List Diagnostic := []
  deriving DecidableEq

namespace Reader

def refuse (r : Reader) (d : Diagnostic) : Reader := { r with ok := false, found := d :: r.found }

/-- A comment means something only if it starts as the marker, before the first instruction. -/
def comment (r : Reader) (text : Bytes) : Reader :=
  if r.instrs.isEmpty && Listing.marker.isPrefixOf text then { r with optimized := true } else r

def instruction (r : Reader) (op : Op) : Reader :=
  { r with instrs := ⟨op, 0⟩ :: r.instrs, halted := op = .halt }

/-- A fault does not stop the reader, but a halt counts even on a faulty line. -/
def fault (file : UInt32) (r : Reader) (l : Line) (cause : LineFault) : Reader :=
  { r.refuse (.ofFault file l cause) with halted := cause.halts }

/-- Refuses content after the halt, and reports it the first time. -/
def afterHalt (file : UInt32) (r : Reader) (l : Line) : Reader :=
  if r.trailing then { r with ok := false }
  else { r.refuse (.trailingAfterHalt file l) with trailing := true }

def step (file : UInt32) (r : Reader) (l : Line) : Reader :=
  match LineReading.ofLine l.text with
  | .blank => r
  | .comment text => r.comment text
  | .instruction op => if r.halted then r.afterHalt file l else r.instruction op
  | .fault cause => if r.halted then r.afterHalt file l else r.fault file l cause

/-- At the end of the text a halt must have been met. -/
def finish (file : UInt32) (text : Bytes) (r : Reader) : Reader :=
  if r.halted then r else r.refuse (.missingHalt file text)

/-- The listing, unless the text was refused. -/
def listing? (r : Reader) : Option Listing :=
  if r.ok then some { instrs := r.instrs.reverse, optimized := r.optimized } else none

end Reader

def Listing.read (text : Bytes) (file : UInt32) (bag : Option Bag) : Option Listing × Option Bag :=
  let r := ((Newline.lf.split text).foldl (Reader.step file) {}).finish file text
  (r.listing?, bag.map (·.report r.found.reverse))

end Linewise
