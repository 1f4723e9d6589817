import Linewise.Decimal
/-!
Tables of settings: values under distinct keys, in the bytewise order of the keys.
-/
namespace Linewise.Settings

inductive Value where
  | text (s : Bytes)
  | integer (n : Int)
  | boolean (b : Bool)
  deriving DecidableEq, Inhabited

def Value.render : Value → Bytes
  | .text s => s
  | .integer n => Decimal.ofInt n
  | .boolean b => if b then utf8 "true" else utf8 "false"

/-- The entries of a table; `put` keeps their keys in strictly increasing order. -/
abbrev Table := List (Bytes × Value)

namespace Table

def get? (t : Table) (key : Bytes) : Option Value := (t.find? fun e => e.1 = key).map (·.2)

def has (t : Table) (key : Bytes) : Bool := t.any fun e => e.1 = key

/-- Sets the value of a key, in place of any it had. -/
def put (key : Bytes) (value : Value) : Table → Table
  | [] => [(key, value)]
  | (k, v) :: rest =>
    if key = k then (key, value) :: rest
    else if key < k then (key, value) :: (k, v) :: rest
    else (k, v) :: put key value rest

theorem get?_put (t : Table) (key other : Bytes) (value : Value) :
    (t.put key value).get? other = if other = key then some value else t.get? other := by
  induction t with
  | nil => simp only [put, get?]; grind
  | cons e rest ih => simp only [put, get?] at *; grind

/-- The entries of `upper` over those of `lower`. -/
def overlay (upper lower : Table) : Table := upper.foldl (fun t e => t.put e.1 e.2) lower

end Table
end Linewise.Settings
