import Coedit.Fault

/-!
# The 64-bit range

Lengths, offsets and counters are natural numbers below `Word.bound`. Arithmetic on them is exact
or a fault: `add` and `sub` refuse a result that leaves the range. `toSigned` reads a word as a two's
complement number, and `signedSub` is the difference of those, checked in the same way.
-/

namespace Coedit.Word

/-- The number of values of a 64-bit word. -/
def bound : Nat := 18446744073709551616

/-- The number of those that are not negative when read in two's complement. -/
def signedBound : Nat := 9223372036854775808

theorem bound_eq : bound = 2 * signedBound := by decide

/-- The sum, if it is a word. -/
def add (a b : Nat) : Except Fault Nat :=
  if a + b < bound then .ok (a + b) else .error (.overflow .add)

/-- The difference, if it is not negative. -/
def sub (a b : Nat) : Except Fault Nat :=
  if b ≤ a then .ok (a - b) else .error (.overflow .subtract)

theorem add_eq_ok {a b : Nat} (h : a + b < bound) : add a b = .ok (a + b) := if_pos h

theorem sub_eq_ok {a b : Nat} (h : b ≤ a) : sub a b = .ok (a - b) := if_pos h

/-- The word read in two's complement: words from `signedBound` on are negative. -/
def toSigned (a : Nat) : Int := Int.bmod a bound

/-- Does the number have a two's complement form in 64 bits? -/
def InSignedRange (z : Int) : Prop := -(signedBound : Int) ≤ z ∧ z < signedBound

instance (z : Int) : Decidable (InSignedRange z) := inferInstanceAs (Decidable (_ ∧ _))

/-- The signed difference, if it is in range. -/
def signedSub (a b : Int) : Except Fault Int :=
  if InSignedRange (a - b) then .ok (a - b) else .error (.overflow .subtract)

end Coedit.Word
