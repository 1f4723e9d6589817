import Linewise.Bytes
/-!
What a run prints goes out value by value, at once. A transcript is what is out so far.
-/
namespace Linewise

/-- The values that a run has printed, the latest first, and the count of them that it reports. -/
structure Transcript where
  printed : List Bytes := []
  count : UInt32 := 0
  deriving DecidableEq

namespace Transcript

def add (t : Transcript) (value : Bytes) : Transcript :=
  { printed := value :: t.printed, count := t.count + 1 }

/-- The values in the order in which they were printed. -/
def values (t : Transcript) : List Bytes := t.printed.reverse

end Transcript
end Linewise
