import Linewise.Diagnostic.Basic
import Linewise.Listing.Basic
/-!
The two builders. Each goes through the statements once, with what it has made so far in hand. The
plain one keeps emits and prints one for one. The optimizing one folds the emits into the literals
that they are printed with, so emits after the last print vanish. An invalid statement ends either
of them at once, and nothing made before it is kept.
-/
namespace Linewise

/-- What the plain builder has made so far, the latest instruction first. -/
structure Draft where
  instrs : List Instr := []
  comments : UInt32 := 0
  deriving DecidableEq

namespace Draft

/-- Adds the instruction of an emit or a print. -/
def step (d : Draft) (s : Statement) : Except InvalidStatement Draft :=
  match s.kind with
  | .comment => .ok { d with comments := d.comments + 1 }
  | .emit => .ok { d with instrs := ⟨.append s.payload, s.line⟩ :: d.instrs }
  | .print => .ok { d with instrs := ⟨.print, s.line⟩ :: d.instrs }
  | .invalid => .error ⟨s.line, s.span⟩

def finish (d : Draft) : Listing :=
  { instrs := d.instrs.reverse, stats := { comments := d.comments } }

end Draft

/-- What the optimizing builder has made so far: the text built up, the emits that no print has
taken up yet and the instructions, the latest of both first, and the counts. -/
structure Folding where
  text : Bytes := []
  pending : List Statement := []
  instrs : List Instr := []
  stats : Stats := {}
  deriving DecidableEq

namespace Folding

/-- Takes up an emit, or makes the literal of a print from all that was taken up. -/
def step (f : Folding) (s : Statement) : Except InvalidStatement Folding :=
  match s.kind with
  | .comment => .ok { f with stats := { f.stats with comments := f.stats.comments + 1 } }
  | .emit => .ok { f with text := f.text ++ s.payload, pending := s :: f.pending }
  | .print =>
    let folded := f.stats.emitsFolded + UInt32.ofNat f.pending.length
    .ok { f with
      instrs := ⟨.printLiteral f.text, s.line⟩ :: f.instrs
      stats := { f.stats with emitsFolded := folded }
      pending := [] }
  | .invalid => .error ⟨s.line, s.span⟩

/-- Emits still pending at the end are dead. -/
def finish (f : Folding) : Listing :=
  { instrs := f.instrs.reverse
    optimized := true
    stats := { f.stats with deadEmits := UInt32.ofNat f.pending.length } }

end Folding

namespace Program

/-- One instruction for each emit and each print. -/
def build (p : Program) : Except InvalidStatement Listing :=
  (p.foldlM Draft.step {}).map Draft.finish

/-- One literal for each print. With `warn`, the dead emits are reported. -/
def buildOptimized (warn : Bool) (p : Program) (bag : Option Bag) :
    Except InvalidStatement Listing × Option Bag :=
  match p.foldlM Folding.step {} with
  | .error e => (.error e, bag)
  | .ok f =>
    (.ok f.finish, bag.map (·.report (if warn then f.pending.reverse.map .deadEmit else [])))

def buildWith (optimize warn : Bool) (p : Program) (bag : Option Bag) :
    Except InvalidStatement Listing × Option Bag :=
  if optimize then p.buildOptimized warn bag else (p.build, bag)

end Program
end Linewise
