/-!
# Edit ids

Every recorded edit carries an id, a 128-bit number, which the caller supplies. Ids are compared
and, in messages, shown in the usual hyphenated hexadecimal form; nothing else is done with them.
-/

namespace Coedit

/-- The id of an edit: a 128-bit number. -/
structure EditId where
  value : Nat
  deriving DecidableEq, Repr

namespace EditId

/-- The last `n` hexadecimal digits of `v`, with leading zeros. -/
def hexDigits (n v : Nat) : List Char :=
  (List.range n).reverse.map fun i => Nat.digitChar ((v >>> (4 * i)) % 16)

/-- The 32 hexadecimal digits in groups of 8, 4, 4, 4 and 12. -/
def hyphenated (id : EditId) : String :=
  let group (n shift : Nat) := String.ofList (hexDigits n (id.value >>> (4 * shift)))
  "-".intercalate [group 8 24, group 4 20, group 4 16, group 4 12, group 12 0]

end EditId

end Coedit
