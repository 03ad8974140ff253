import Coedit.Text
import Coedit.Text.Unprinted

/-!
# Quoted text

How a text is shown inside a message: between double quotes, with every character that would
break the quotes or leave no mark on the page written as an escape.
-/

namespace Coedit.Text

/-- The escape of one character: the five short forms, a hexadecimal form for characters that do
not print, and the character itself otherwise. A single quote needs no escape here. -/
def escape (c : Char) : Text :=
  match c with
  | '\x00' => ['\\', '0']
  | '\t' => ['\\', 't']
  | '\r' => ['\\', 'r']
  | '\n' => ['\\', 'n']
  | '"' => ['\\', '"']
  | '\\' => ['\\', '\\']
  | c =>
    if Unprinted.contains c then
      ['\\', 'u', '\x7b'] ++ Nat.toDigits 16 c.toNat ++ ['\x7d']
    else [c]

/-- The text between double quotes, with its characters escaped. -/
def quoted (t : Text) : String :=
  String.ofList ('"' :: t.flatMap escape ++ ['"'])

end Coedit.Text
