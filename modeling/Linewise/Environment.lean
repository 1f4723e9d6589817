import Linewise.Bytes
/-!
Environment variables. A variable that is set to nothing counts as unset.
-/
namespace Linewise

abbrev Environment := List (Bytes × Bytes)

namespace Environment

/-- The value of a variable, unless it is unset or empty. -/
def get? (env : Environment) (name : Bytes) : Option Bytes :=
  ((env.find? fun e => e.1 = name).map (·.2)).filter fun v => !v.isEmpty

end Environment
end Linewise
