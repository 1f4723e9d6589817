import Linewise.Bytes
/-!
Sinks take finished artifacts. A sink is asked to keep the bytes of a whole artifact at once and
answers that it has, or that it has not and possibly why.
-/
namespace Linewise

/-- Why an artifact could not be kept. -/
structure PersistFailure where
  path : Bytes
  reason : Bytes
  deriving DecidableEq

/-- The message of a failure; a sink that is no file has no path to name. -/
def PersistFailure.describe (f : PersistFailure) : Bytes :=
  if f.path.isEmpty then utf8 "persist failed: " ++ f.reason
  else utf8 "persist failed for " ++ f.path.quoted ++ utf8 ": " ++ f.reason

inductive Reply where
  | kept
  | refused (failure : Option PersistFailure)
  deriving DecidableEq

/-- A sink whose memory is of type `σ`, and the name under which messages speak of it. -/
structure Sink (σ : Type) where
  target : Bytes
  persist : Bytes → σ → Reply × σ

/-- What a memory sink holds: the last artifact, and how many it was given. -/
structure Memory where
  bytes : Bytes := []
  count : UInt32 := 0
  deriving DecidableEq, Inhabited

/-- Keeps every artifact in place of the one before. -/
def Memory.sink : Sink Memory where
  target := utf8 "<memory>"
  persist bytes m := (.kept, ⟨bytes, m.count + 1⟩)

/-- Refuses every artifact, and counts how often it did. -/
def Sink.refusing (failure : Option PersistFailure) : Sink UInt32 where
  target := utf8 "<refusing>"
  persist _ n := (.refused failure, n + 1)

end Linewise
