/-!
# Retention policies

How much history to keep: a bound on the number of entries and a bound on what their operations
weigh together.
-/

namespace Coedit

/-- Bounds on a history. -/
structure Retention where
  /-- At most this many entries are kept. -/
  maxEntries : Nat
  /-- The kept operations weigh at most this much together. -/
  maxWeight : Nat
  deriving DecidableEq, Repr

namespace Retention

/-- Ten thousand entries, and ten times 2^20 characters in their operations. -/
def standard : Retention := ⟨10000, 10 * 1024 * 1024⟩

end Retention

end Coedit
